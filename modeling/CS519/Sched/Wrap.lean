import CS519.Sched.Timeline

/-!
# The queue with 64-bit virtual times

The kernel's virtual times wrap around and are compared by the sign of a difference. `CfsRq.wrap` takes a
queue with unbounded times to the queue that the kernel holds. While the runnable tasks lie close
together every comparison agrees with the unbounded one, so the two queues take the same steps
(`wrap_step`), and they do lie close together: a penalty is added to a task that has just been the
leftmost one, and `min_vruntime` follows (`within_step`). So penalties never disturb the order of the
timeline, however many of them there are (`run_queue_order`). Only a task that is alone for half the
range without being accounted escapes (`not_run_queue_order`).
-/

namespace CS519.Sched
open Function

namespace CfsRq
variable {κ τ : Type*}

/-- The queue as the kernel holds it. -/
def wrap (rq : CfsRq ℤ τ) : CfsRq (BitVec 64) τ where
  vruntime t := .ofInt 64 (rq.vruntime t)
  inactive := rq.inactive
  min_vruntime := .ofInt 64 rq.min_vruntime
  curr := rq.curr
  tasks_timeline := rq.tasks_timeline

/-- A queue of the kernel with its times as numbers. -/
def lift (rq : CfsRq (BitVec 64) τ) : CfsRq ℤ τ where
  vruntime t := (rq.vruntime t).toNat
  inactive := rq.inactive
  min_vruntime := rq.min_vruntime.toNat
  curr := rq.curr
  tasks_timeline := rq.tasks_timeline

/-- A queue of the kernel is read back. -/
@[simp] lemma wrap_lift (rq : CfsRq (BitVec 64) τ) : rq.lift.wrap = rq := by
  simp [wrap, lift]

end CfsRq

/-- The event as the kernel sees it. -/
def Event.wrap {τ : Type*} : Event ℤ τ → Event (BitVec 64) τ
  | .pick => .pick
  | .execute d => .execute d
  | .preempt d => .preempt d
  | .set_inactive => .set_inactive
  | .leave t => .leave t
  | .arrive t v => .arrive t (.ofInt 64 v)

/-! ## Comparisons -/

section Compare
variable {a b : ℤ}

/-- Differences of less than half the range are read back. -/
lemma delta_wrap (h : |a - b| < 2 ^ 63) : (BitVec.ofInt 64 a - BitVec.ofInt 64 b).toInt = a - b := by
  obtain ⟨lo, hi⟩ := abs_lt.mp h
  have sub : BitVec.ofInt 64 a - BitVec.ofInt 64 b = BitVec.ofInt 64 (a - b) := by
    rw [Int.sub_eq_add_neg, BitVec.ofInt_add, BitVec.ofInt_neg, BitVec.sub_eq_add_neg]
  rw [sub]
  exact BitVec.toInt_ofInt_eq_self (by decide) (by omega) (by omega)

/-- Close times are compared rightly. -/
lemma entity_before_wrap (h : |a - b| < 2 ^ 63) :
    Vruntime.u64.entity_before (.ofInt 64 a) (.ofInt 64 b) = Vruntime.unbounded.entity_before a b := by
  simp only [Vruntime.entity_before, delta_wrap h]

/-- The greater of two close times. -/
lemma max_vruntime_wrap (h : |b - a| < 2 ^ 63) :
    Vruntime.u64.max_vruntime (.ofInt 64 a) (.ofInt 64 b) =
      .ofInt 64 (Vruntime.unbounded.max_vruntime a b) := by
  simp only [Vruntime.max_vruntime, delta_wrap h]
  split <;> rfl

/-- The lesser of two close times. -/
lemma min_vruntime_wrap (h : |b - a| < 2 ^ 63) :
    Vruntime.u64.min_vruntime (.ofInt 64 a) (.ofInt 64 b) =
      .ofInt 64 (Vruntime.unbounded.min_vruntime a b) := by
  simp only [Vruntime.min_vruntime, delta_wrap h]
  split <;> rfl

/-- Time may be added before or after it wraps. -/
lemma add_wrap (a : ℤ) (d : ℕ) :
    Vruntime.u64.add (.ofInt 64 a) d = .ofInt 64 (Vruntime.unbounded.add a d) := by
  change BitVec.ofInt 64 a + BitVec.ofNat 64 d = BitVec.ofInt 64 (a + d)
  rw [BitVec.ofInt_add, BitVec.ofInt_natCast]

/-- Times may be entered before or after they wrap. -/
lemma update_wrap {τ : Type*} [DecidableEq τ] (f : τ → ℤ) (t : τ) (v : ℤ) :
    update (fun x => BitVec.ofInt 64 (f x)) t (.ofInt 64 v) =
      fun x => BitVec.ofInt 64 (update f t v x) := by
  funext x
  by_cases h : x = t
  · subst h
    simp
  · simp [h]

end Compare

/-! ## How far the tasks lie apart -/

section Range
variable {τ : Type*} [DecidableEq τ] (rb : Rebalance τ) {S : ℕ} {rq : CfsRq ℤ τ}

/-- The time of every runnable task against `min_vruntime`. -/
def Within (S : ℕ) (rq : CfsRq ℤ τ) : Prop :=
  ∀ t, rq.on_rq t →
    rq.min_vruntime ≤ rq.vruntime t ∧ rq.vruntime t ≤ rq.min_vruntime + INACTIVE_PENALTY_NS + S

/-- The tasks are fixed, and the running one never executes beyond `S` ahead of the leftmost. -/
def admits (S : ℕ) (rq : CfsRq ℤ τ) : Event ℤ τ → Prop
  | .pick | .set_inactive => True
  | .execute d | .preempt d =>
    ∀ c ∈ rq.curr, ∀ left ∈ rq.leftmost, rq.vruntime c + d ≤ rq.vruntime left + S
  | .leave _ | .arrive _ _ => False

instance (S : ℕ) (rq : CfsRq ℤ τ) : DecidablePred (admits S rq)
  | .pick | .set_inactive => inferInstanceAs (Decidable True)
  | .execute d | .preempt d => inferInstanceAs (Decidable
      (∀ c ∈ rq.curr, ∀ left ∈ rq.leftmost, rq.vruntime c + d ≤ rq.vruntime left + S))
  | .leave _ | .arrive _ _ => inferInstanceAs (Decidable False)

/-- A task that is alone has no leftmost to be ahead of. It executes at most `S` before it is accounted. -/
def accounted (S : ℕ) (rq : CfsRq ℤ τ) : Event ℤ τ → Prop
  | .execute d | .preempt d => rq.leftmost = none → d ≤ S
  | _ => True

instance (S : ℕ) (rq : CfsRq ℤ τ) : DecidablePred (accounted S rq)
  | .execute d | .preempt d => inferInstanceAs (Decidable (rq.leftmost = none → d ≤ S))
  | .pick | .set_inactive | .leave _ | .arrive _ _ => inferInstanceAs (Decidable True)

/-- What accounting does to the times of the running task and of `min_vruntime`. -/
lemma update_curr_range {c : τ} {d : ℕ} (within : Within S rq) (ord : Ordered rq)
    (run : rq.curr = some c) (adm : admits S rq (.execute d)) :
    let rq' := update_curr .unbounded rq d
    rq'.vruntime c = rq.vruntime c + d ∧ rq.min_vruntime ≤ rq'.min_vruntime ∧
      rq'.min_vruntime ≤ rq'.vruntime c ∧ rq'.vruntime c ≤ rq'.min_vruntime + S ∧
      ∀ t ∈ rq.waiting, rq'.min_vruntime ≤ rq.vruntime t := by
  intro rq'
  have own := within c (.inl run)
  have time : rq'.vruntime c = rq.vruntime c + d := by
    simp [rq', update_curr_some _ rq d run]
  have min : rq'.min_vruntime =
      max rq.min_vruntime (least_vruntime .unbounded rq (rq.vruntime c + d)) := by
    simp [rq', update_curr_some _ rq d run]
  unfold least_vruntime at min
  cases left : rq.leftmost with
  | none =>
    simp only [left] at min
    have empty : rq.waiting = [] := List.head?_eq_none_iff.mp left
    refine ⟨time, by omega, by omega, by omega, ?_⟩
    simp [empty]
  | some l =>
    have reach := adm c run l left
    simp only [left, Vruntime.min_vruntime_unbounded] at min
    obtain ⟨rest, e⟩ := leftmost_eq left
    have first := within l (.inr (by simp [e]))
    refine ⟨time, by omega, by omega, by omega, fun t mem => ?_⟩
    have := ord.leftmost_le left mem
    omega

/-- A pick leaves the times. -/
lemma within_pick (within : Within S rq) : Within S (pick_next_entity rb rq) := by
  intro t runs
  have old := within t ((on_rq_pick rb).mp runs)
  by_cases h : rq.curr ≠ none ∨ rq.leftmost = none
  · rwa [pick_idle rb h]
  · obtain ⟨idle, some⟩ := not_or.mp h
    obtain ⟨l, left⟩ := Option.ne_none_iff_exists'.mp some
    rw [(waiting_pick rb (not_not.mp idle) left).1]
    exact old

/-- The running task comes no further than `S` beyond the leftmost, which is at least `min_vruntime`. -/
lemma within_execute {d : ℕ} (within : Within S rq) (ord : Ordered rq)
    (adm : admits S rq (.execute d)) : Within S (update_curr .unbounded rq d) := by
  cases run : rq.curr with
  | none =>
    rw [update_curr, run]
    exact within
  | some c =>
    obtain ⟨time, up, low, high, below⟩ := update_curr_range within ord run adm
    intro t runs
    by_cases e : t = c
    · subst e
      omega
    · have mem : t ∈ rq.waiting := by
        rcases runs with h | h
        · rw [curr_update_curr, run] at h
          exact absurd (Option.some.inj h).symm e
        · simpa using h
      have old := within t (.inr mem)
      have := below t mem
      rw [vruntime_update_curr _ rq d fun h => e (Option.some.inj (run.symm.trans h)).symm]
      omega

/-- A penalty is added to a time that has just been accounted. -/
lemma within_preempt {d : ℕ} (within : Within S rq) (ord : Ordered rq)
    (adm : admits S rq (.preempt d)) : Within S (put_prev_entity .unbounded rb rq d) := by
  cases run : rq.curr with
  | none =>
    rw [put_prev_entity, run]
    exact within
  | some c =>
    obtain ⟨time, up, low, high, below⟩ := update_curr_range within ord run adm
    intro t runs
    have was := (on_rq_put_prev_entity rb ord d).mp runs
    rw [put_prev_entity_some _ rb rq d run]
    simp only [__enqueue_entity, min_vruntime_inflate]
    by_cases e : t = c
    · -- the penalty is added to a time that is at most `S` above `min_vruntime`
      subst e
      cases flag : rq.inactive t with
      | false =>
        simp only [inflate, inactive_update_curr, flag]
        simp only [Bool.false_eq_true, if_false]
        omega
      | true =>
        simp only [inflate, inactive_update_curr, flag, if_true, update_self]
        omega
    · have mem : t ∈ rq.waiting :=
        was.resolve_left fun h => e (Option.some.inj (run.symm.trans h)).symm
      have old := within t (.inr mem)
      have := below t mem
      rw [vruntime_inflate _ _ e,
        vruntime_update_curr _ rq d fun h => e (Option.some.inj (run.symm.trans h)).symm]
      omega

/-- A call leaves the time of its caller, or takes it to `min_vruntime`. -/
lemma within_set_inactive (within : Within S rq) : Within S (set_inactive rq) := by
  intro t runs
  have old := within t (by simpa [CfsRq.on_rq] using runs)
  rw [min_vruntime_set_inactive]
  by_cases run : rq.curr = some t
  · rw [vruntime_set_inactive_self rq run]
    split
    · omega
    · exact old
  · rw [vruntime_set_inactive rq run]
    exact old

/-- The runnable tasks stay close to `min_vruntime`. -/
theorem within_step {e : Event ℤ τ} (adm : admits S rq e) (ord : Ordered rq) (within : Within S rq) :
    Within S (cfs_step .unbounded rb rq e) := by
  cases e with
  | pick => exact within_pick rb within
  | execute d => exact within_execute within ord adm
  | preempt d => exact within_preempt rb within ord adm
  | set_inactive => exact within_set_inactive within
  | leave _ => exact adm.elim
  | arrive _ _ => exact adm.elim

/-- A task that is the only one is at most a penalty ahead of `min_vruntime`. -/
def Alone (rq : CfsRq ℤ τ) : Prop :=
  ∀ c, rq.on_rq c → (∀ t, rq.on_rq t → t = c) → rq.vruntime c ≤ rq.min_vruntime + INACTIVE_PENALTY_NS

/-- Accounting takes `min_vruntime` to the time of a task that is the only one. -/
lemma update_curr_alone {c : τ} (d : ℕ) (within : Within S rq) (ord : Ordered rq) (run : rq.curr = some c)
    (only : ∀ t, rq.on_rq t → t = c) :
    (update_curr .unbounded rq d).vruntime c = (update_curr .unbounded rq d).min_vruntime := by
  have own := within c (.inl run)
  have left : rq.leftmost = none := by
    rw [CfsRq.leftmost, List.head?_eq_none_iff, List.eq_nil_iff_forall_not_mem]
    intro t mem
    exact ord.outside c run (only t (.inr mem) ▸ mem)
  simp only [update_curr_some _ rq d run, least_vruntime, left, update_self,
    Vruntime.max_vruntime_unbounded]
  omega

/-- A task that is alone is at `min_vruntime` whenever it has been accounted. -/
lemma alone_step {e : Event ℤ τ} (adm : admits S rq e) (ord : Ordered rq) (within : Within S rq)
    (alone : Alone rq) : Alone (cfs_step .unbounded rb rq e) := by
  have settled : e.settled := by
    cases e with
    | leave _ => exact adm.elim
    | arrive _ _ => exact adm.elim
    | _ => trivial
  intro c runs only
  rw [on_rq_step rb settled ord] at runs
  simp only [on_rq_step rb settled ord] at only
  have old := alone c runs only
  cases e with
  | pick =>
    by_cases h : rq.curr ≠ none ∨ rq.leftmost = none
    · rwa [cfs_step, pick_idle rb h]
    · obtain ⟨idle, some⟩ := not_or.mp h
      obtain ⟨l, left⟩ := Option.ne_none_iff_exists'.mp some
      rw [cfs_step, (waiting_pick rb (not_not.mp idle) left).1]
      exact old
  | execute d =>
    cases run : rq.curr with
    | none => rwa [cfs_step, update_curr, run]
    | some t =>
      obtain rfl := only t (.inl run)
      rw [cfs_step, update_curr_alone d within ord run only]
      omega
  | preempt d =>
    cases run : rq.curr with
    | none => rwa [cfs_step, put_prev_entity, run]
    | some t =>
      obtain rfl := only t (.inl run)
      have now := update_curr_alone d within ord run only
      rw [cfs_step, put_prev_entity_some _ rb rq d run]
      simp only [__enqueue_entity, min_vruntime_inflate]
      unfold inflate
      split
      · simp only [update_self]
        omega
      · omega
  | set_inactive =>
    rw [cfs_step, min_vruntime_set_inactive]
    by_cases run : rq.curr = some c
    · rw [vruntime_set_inactive_self rq run]
      split
      · omega
      · exact old
    · rwa [vruntime_set_inactive rq run]
  | leave _ => exact adm.elim
  | arrive _ _ => exact adm.elim

/-- What holds in every state of a run with unbounded times. -/
structure Close (S : ℕ) (rq : CfsRq ℤ τ) : Prop where
  ordered : Ordered rq
  within : Within S rq
  alone : Alone rq

/-- Every step keeps the invariant. -/
theorem close_step {e : Event ℤ τ} (adm : admits S rq e) (close : Close S rq) :
    Close S (cfs_step .unbounded rb rq e) where
  ordered := ordered_step rb e close.ordered
  within := within_step rb adm close.ordered close.within
  alone := alone_step rb adm close.ordered close.within close.alone

end Range

/-! ## The same steps -/

section Steps
variable {τ : Type*} [DecidableEq τ] (rb : Rebalance τ) {S : ℕ} {rq : CfsRq ℤ τ}

/-- A step of the kernel's queue. -/
abbrev u64_step (rq : CfsRq (BitVec 64) τ) (e : Event ℤ τ) : CfsRq (BitVec 64) τ :=
  cfs_step .u64 rb rq e.wrap

/-- Accounting in the queue of the kernel. -/
lemma update_curr_wrap {d : ℕ} (small : S < 2 ^ 62) (within : Within S rq) (alone : Alone rq)
    (adm : admits S rq (.execute d)) (lone : accounted S rq (.execute d)) :
    update_curr .u64 rq.wrap d = (update_curr .unbounded rq d).wrap := by
  cases run : rq.curr with
  | none => simp [update_curr, run, CfsRq.wrap]
  | some c =>
    have own := within c (.inl run)
    have wide : (INACTIVE_PENALTY_NS : ℤ) = 10000000000 := rfl
    rw [update_curr_some _ rq d run, update_curr_some _ rq.wrap d (c := c) run]
    have least : least_vruntime .u64 rq.wrap (.ofInt 64 (rq.vruntime c + d)) =
          .ofInt 64 (least_vruntime .unbounded rq (rq.vruntime c + d)) ∧
        |least_vruntime .unbounded rq (rq.vruntime c + d) - rq.min_vruntime| < 2 ^ 63 := by
      have same : rq.wrap.leftmost = rq.leftmost := rfl
      unfold least_vruntime
      rw [same]
      cases left : rq.leftmost with
      | none =>
        have lone := lone left
        have empty : rq.waiting = [] := List.head?_eq_none_iff.mp left
        have near := alone c (.inl run) fun t runs =>
          runs.elim (fun h => (Option.some.inj (run.symm.trans h)).symm) fun h => by simp [empty] at h
        simp only
        exact ⟨trivial, abs_lt.mpr (by omega)⟩
      | some l =>
        have reach := adm c run l left
        simp only
        obtain ⟨rest, e⟩ := leftmost_eq left
        have first := within l (.inr (by simp [e]))
        refine ⟨min_vruntime_wrap (abs_lt.mpr (by omega)), ?_⟩
        rw [Vruntime.min_vruntime_unbounded]
        exact abs_lt.mpr (by omega)
    have time : Vruntime.u64.add (rq.wrap.vruntime c) d = .ofInt 64 (rq.vruntime c + d) :=
      add_wrap _ _
    rw [time, least.1]
    simp only [CfsRq.wrap, update_wrap, max_vruntime_wrap least.2]

/-- The penalty in the queue of the kernel. -/
lemma inflate_wrap (t : τ) : inflate .u64 rq.wrap t = (inflate .unbounded rq t).wrap := by
  have time : Vruntime.u64.add (rq.wrap.vruntime t) INACTIVE_PENALTY_NS =
      .ofInt 64 (rq.vruntime t + INACTIVE_PENALTY_NS) := add_wrap _ _
  unfold inflate
  rw [time]
  by_cases flag : rq.inactive t
  · simp [CfsRq.wrap, flag, update_wrap]
  · simp [CfsRq.wrap, flag]

/-- The walk to a free link compares with tasks of the timeline only. -/
lemma enqueue_wrap {t : τ} (close : ∀ a ∈ rq.waiting, |rq.vruntime t - rq.vruntime a| < 2 ^ 63) :
    __enqueue_entity .u64 rb rq.wrap t = (__enqueue_entity .unbounded rb rq t).wrap := by
  have same : rq.tasks_timeline.link
        (fun other => Vruntime.u64.entity_before (rq.wrap.vruntime t) (rq.wrap.vruntime other)) t =
      rq.tasks_timeline.link
        (fun other => Vruntime.unbounded.entity_before (rq.vruntime t) (rq.vruntime other)) t :=
    Tree.link_congr fun a mem => entity_before_wrap (close a mem)
  simp only [__enqueue_entity, CfsRq.wrap] at same ⊢
  rw [same]

/-- A preemption in the queue of the kernel. -/
lemma put_prev_entity_wrap {d : ℕ} (small : S < 2 ^ 62) (within : Within S rq) (alone : Alone rq)
    (ord : Ordered rq) (adm : admits S rq (.preempt d)) (lone : accounted S rq (.preempt d)) :
    put_prev_entity .u64 rb rq.wrap d = (put_prev_entity .unbounded rb rq d).wrap := by
  cases run : rq.curr with
  | none => simp [put_prev_entity, run, CfsRq.wrap]
  | some c =>
    obtain ⟨time, up, low, high, below⟩ := update_curr_range within ord run adm
    have wide : (INACTIVE_PENALTY_NS : ℤ) = 10000000000 := rfl
    rw [put_prev_entity_some _ rb rq d run, put_prev_entity_some _ rb rq.wrap d (c := c) run,
      update_curr_wrap small within alone adm lone, inflate_wrap, enqueue_wrap]
    · rfl
    · intro a mem
      have mem : a ∈ rq.waiting := by simpa using mem
      have ne : a ≠ c := fun e => ord.outside c run (e ▸ mem)
      have old := within a (.inr mem)
      have := below a mem
      rw [vruntime_inflate _ _ ne,
        vruntime_update_curr _ rq d fun h => ne (Option.some.inj (run.symm.trans h)).symm]
      cases flag : rq.inactive c with
      | false =>
        simp only [inflate, inactive_update_curr, flag, Bool.false_eq_true, if_false]
        exact abs_lt.mpr (by omega)
      | true =>
        simp only [inflate, inactive_update_curr, flag, if_true, update_self]
        exact abs_lt.mpr (by omega)

/-- The call in the queue of the kernel. -/
lemma set_inactive_wrap : set_inactive rq.wrap = (set_inactive rq).wrap := by
  cases run : rq.curr with
  | none => simp [set_inactive, run, CfsRq.wrap]
  | some c => cases flag : rq.inactive c <;> simp [set_inactive, run, flag, CfsRq.wrap, update_wrap]

/-- A pick in the queue of the kernel. -/
lemma pick_next_entity_wrap : pick_next_entity rb rq.wrap = (pick_next_entity rb rq).wrap := by
  have same : rq.wrap.leftmost = rq.leftmost := rfl
  unfold pick_next_entity
  rw [same]
  cases run : rq.curr <;> cases left : rq.leftmost <;>
    simp [run, CfsRq.wrap, __dequeue_entity]

/-- Every step of the kernel's queue is the one of the queue with unbounded times. -/
theorem wrap_step {e : Event ℤ τ} (small : S < 2 ^ 62) (close : Close S rq) (adm : admits S rq e)
    (lone : accounted S rq e) : u64_step rb rq.wrap e = (cfs_step .unbounded rb rq e).wrap := by
  obtain ⟨ord, within, alone⟩ := close
  cases e with
  | pick => exact pick_next_entity_wrap rb
  | execute d => exact update_curr_wrap small within alone adm lone
  | preempt d => exact put_prev_entity_wrap rb small within alone ord adm lone
  | set_inactive => exact set_inactive_wrap
  | leave _ => exact adm.elim
  | arrive _ _ => exact adm.elim

end Steps

/-! ## Runs -/

section Runs
variable {τ : Type*} [DecidableEq τ] (rb : Rebalance τ) {S : ℕ} {rq : CfsRq ℤ τ}

/-- All runnable tasks have the time `min_vruntime`. -/
structure Level {κ τ : Type*} (rq : CfsRq κ τ) : Prop where
  nodup : rq.waiting.Nodup
  outside : ∀ t, rq.curr = some t → t ∉ rq.waiting
  level : ∀ t, rq.on_rq t → rq.vruntime t = rq.min_vruntime

/-- A step changes no key on the timeline. -/
def keeps_keys {κ τ ι : Type*} (step : CfsRq κ τ → ι → CfsRq κ τ) (rq : CfsRq κ τ) (e : ι) : Prop :=
  ∀ t ∈ rq.waiting, (step rq e).vruntime t = rq.vruntime t

/-- The kernel's queue `u` against the queue `rq` with unbounded times. -/
structure Agrees {τ : Type*} (S : ℕ) (rq : CfsRq ℤ τ) (u : CfsRq (BitVec 64) τ) : Prop where
  wrapped : u = rq.wrap
  sorted : u.waiting.Pairwise fun a b =>
    Vruntime.u64.entity_before (u.vruntime b) (u.vruntime a) = false
  within : ∀ t, u.on_rq t → (u.vruntime t - u.min_vruntime).toNat ≤ INACTIVE_PENALTY_NS + S
  order : ∀ a b, u.on_rq a → u.on_rq b →
    (Vruntime.u64.entity_before (u.vruntime a) (u.vruntime b) = true ↔ rq.vruntime a < rq.vruntime b)

omit [DecidableEq τ] in
/-- Equal times are in order. -/
lemma Level.ordered {u : CfsRq (BitVec 64) τ} (level : Level u) : Ordered u.lift := by
  refine ⟨level.nodup, level.outside, ?_⟩
  have same : ∀ t ∈ u.waiting, u.lift.vruntime t = u.lift.min_vruntime := by
    intro t mem
    simp only [CfsRq.lift, level.level t (.inr mem)]
  refine List.Pairwise.imp_of_mem (fun {a b} ha hb _ => ?_) level.nodup
  rw [same a ha, same b hb]

omit [DecidableEq τ] in
/-- Equal times are close to `min_vruntime`. -/
lemma Level.within {u : CfsRq (BitVec 64) τ} (level : Level u) : Within S u.lift := by
  intro t runs
  have e : u.lift.vruntime t = u.lift.min_vruntime := by
    simp only [CfsRq.lift, level.level t runs]
  omega

omit [DecidableEq τ] in
/-- A task at `min_vruntime` is not ahead of it. -/
lemma Level.alone {u : CfsRq (BitVec 64) τ} (level : Level u) : Alone u.lift := by
  intro c runs _
  exact (level.within (S := 0) c runs).2

omit [DecidableEq τ] in
/-- Queues whose runnable tasks are close agree on all comparisons. -/
lemma agrees_wrap (small : S < 2 ^ 62) (within : Within S rq) (ord : Ordered rq) :
    Agrees S rq rq.wrap := by
  have wide : (INACTIVE_PENALTY_NS : ℤ) = 10000000000 := rfl
  have before : ∀ a b, rq.on_rq a → rq.on_rq b →
      Vruntime.u64.entity_before (rq.wrap.vruntime a) (rq.wrap.vruntime b) =
        decide (rq.vruntime a < rq.vruntime b) := by
    intro a b ra rb
    have ha := within a ra
    have hb := within b rb
    rw [← Vruntime.entity_before_unbounded]
    exact entity_before_wrap (abs_lt.mpr (by omega))
  refine ⟨rfl, ?_, fun t runs => ?_, fun a b ra rb => ?_⟩
  · refine ord.sorted.imp_of_mem fun {a b} ha hb le => ?_
    rw [before b a (.inr hb) (.inr ha)]
    exact decide_eq_false (not_lt.mpr le)
  · have ht := within t runs
    have sub : rq.wrap.vruntime t - rq.wrap.min_vruntime =
        BitVec.ofInt 64 (rq.vruntime t - rq.min_vruntime) := by
      rw [Int.sub_eq_add_neg, BitVec.ofInt_add, BitVec.ofInt_neg, ← BitVec.sub_eq_add_neg]
      rfl
    rw [sub, BitVec.toNat_ofInt]
    omega
  · rw [before a b ra rb, decide_eq_true_iff]

/-- An event that is admitted and accounted for keeps the queue of the kernel the image of the exact one. -/
lemma wrap_refines (small : S < 2 ^ 62) (u : CfsRq (BitVec 64) τ) (q : CfsRq ℤ τ) (e : Event ℤ τ)
    (adm : admits S q e ∧ accounted S q e) (rel : u = q.wrap ∧ Close S q) :
    u64_step rb u e = (cfs_step .unbounded rb q e).wrap ∧ Close S (cfs_step .unbounded rb q e) := by
  obtain ⟨rfl, close⟩ := rel
  exact ⟨wrap_step rb small close adm.1 adm.2, close_step rb adm.1 close⟩

/-- Penalties without end never disturb the timeline of a fixed set of tasks: it stays sorted, no key
changes in it, and the runnable tasks stay close to `min_vruntime`. So the kernel's comparisons are
right as long as a task that is alone is accounted in time. -/
theorem run_queue_order {u : CfsRq (BitVec 64) τ} (level : Level u) {h : List (Event ℤ τ)}
    (adm : Always (cfs_step .unbounded rb) (admits S) u.lift h) :
    let rq := run (cfs_step .unbounded rb) u.lift h
    (Ordered rq ∧ Within S rq ∧
        Always (cfs_step .unbounded rb) (keeps_keys (cfs_step .unbounded rb)) u.lift h) ∧
      (S < 2 ^ 62 → Always (cfs_step .unbounded rb) (accounted S) u.lift h →
        Agrees S rq (run (u64_step rb) u h) ∧
          Always (u64_step rb) (keeps_keys (u64_step rb)) u h) := by
  intro rq
  have start : Close S u.lift := ⟨level.ordered, level.within, level.alone⟩
  have kept : ∀ (s t : CfsRq ℤ τ) (e : Event ℤ τ), admits S t e → (s = t ∧ Close S t) →
      keeps_keys (cfs_step .unbounded rb) s e ∧ cfs_step .unbounded rb s e = cfs_step .unbounded rb t e ∧
        Close S (cfs_step .unbounded rb t e) := by
    rintro s t e adm ⟨rfl, close⟩
    exact ⟨fun x mem => vruntime_waiting _ rb s close.ordered.outside e mem, rfl, close_step rb adm close⟩
  have wrapped : ∀ (s : CfsRq (BitVec 64) τ) (t : CfsRq ℤ τ) (e : Event ℤ τ), S < 2 ^ 62 →
      (admits S t e ∧ accounted S t e) → (s = t.wrap ∧ Close S t) →
      keeps_keys (u64_step rb) s e ∧ u64_step rb s e = (cfs_step .unbounded rb t e).wrap ∧
        Close S (cfs_step .unbounded rb t e) := by
    intro s t e small adm rel
    refine ⟨?_, wrap_refines rb small s t e adm rel⟩
    obtain ⟨rfl, close⟩ := rel
    exact fun x mem => vruntime_waiting _ rb t.wrap close.ordered.outside e.wrap mem
  have final := run_refines (fun s t e adm rel => (kept s t e adm rel).2) ⟨rfl, start⟩ adm
  refine ⟨⟨final.2.ordered, final.2.within, always_refines kept ⟨rfl, start⟩ adm⟩, fun small lone => ?_⟩
  have both := always_and.mpr ⟨adm, lone⟩
  have first : u = u.lift.wrap := u.wrap_lift.symm
  have image := run_refines (wrap_refines rb small) ⟨first, start⟩ both
  refine ⟨?_, always_refines (fun s t e adm rel => wrapped s t e small adm rel) ⟨first, start⟩ both⟩
  rw [image.1]
  exact agrees_wrap small final.2.within final.2.ordered

/-- The tasks 0 and 1, of which 0 is inactive, a little before the counters wrap. -/
def late_tasks : CfsRq (BitVec 64) ℕ :=
  ⟨fun _ => -5, (· = 0), -5, none, .node .black .nil 0 (.node .red .nil 1 .nil)⟩

/-- The task 0 executes across the wrap and is penalised, and the task 1 calls twice. -/
theorem run_queue_order_late_tasks :
    let h := [.pick, .execute 7, .preempt 1, .pick, .execute 9, .set_inactive, .set_inactive,
      .preempt 0]
    let rq := run (cfs_step .unbounded .plain) late_tasks.lift h
    (Ordered rq ∧ Within 10 rq ∧
        Always (cfs_step .unbounded .plain) (keeps_keys (cfs_step .unbounded .plain))
          late_tasks.lift h) ∧
      Agrees 10 rq (run (u64_step .plain) late_tasks h) ∧
        Always (u64_step .plain) (keeps_keys (u64_step .plain)) late_tasks h := by
  intro h rq
  have both := run_queue_order .plain (S := 10) (u := late_tasks) (h := h)
    ⟨by decide, by simp [late_tasks], fun _ _ => rfl⟩ (by decide)
  exact ⟨both.1, both.2 (by decide) (by decide)⟩

/-- A task that is alone on the queue. -/
def task_alone : CfsRq (BitVec 64) ℕ :=
  ⟨fun _ => 0, fun _ => false, 0, none, .node .black .nil 0 .nil⟩

/-- A task that is alone executes for `2 ^ 63` ns before it is accounted, with no leftmost one to be ahead
of: the difference to `min_vruntime` has the wrong sign, and `min_vruntime` does not follow. -/
theorem not_run_queue_order :
    let h := [.pick, .execute (2 ^ 63)]
    let u := run (u64_step .plain) task_alone h
    (Level task_alone ∧ Always (cfs_step .unbounded .plain) (admits 0) task_alone.lift h) ∧
      u.on_rq 0 ∧ u.vruntime 0 = .ofNat 64 (2 ^ 63) ∧ u.min_vruntime = 0 ∧
      ¬ (u.vruntime 0 - u.min_vruntime).toNat ≤ INACTIVE_PENALTY_NS + 0 := by
  intro h u
  have runs : u.on_rq 0 := .inl rfl
  have time : u.vruntime 0 = .ofNat 64 (2 ^ 63) := by decide +kernel
  refine ⟨⟨⟨by decide, by simp [task_alone], ?_⟩, by decide⟩, runs, time, rfl, by decide⟩
  intro _ _
  rfl

end Runs

end CS519.Sched
