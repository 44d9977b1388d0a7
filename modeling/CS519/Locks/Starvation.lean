import CS519.Fair
import CS519.Locks.Blocking

/-!
# Who has to wait for how long

The threads of `Threads` call for the lock again and again. Under the ticket lock a thread that has taken its
ticket enters under every fair schedule: the thread that all others wait for is the head of the queue, and
with each of its accesses it comes closer to the end of its release (`Ahead`). Until then each other thread
enters at most once (`ticket_starvation_free`).

The spin locks of one word promise nothing of the kind: a schedule that lets each thread move again and again
can let the same thread in each time (`word_locks_starve`).
-/

namespace CS519.Locks
variable {N : ℕ}

/-! ## The ticket lock -/

section Bypass
variable {s : Threads ticket_lock N} {t i : Fin N}

/-- The threads that enter in a run. -/
def entries (s : Threads ticket_lock N) (g : List (Fin N)) : List (Fin N) :=
  (trace Threads.step ticket_event s g).filterMap LockEvent.enterer

/-- The entries of a longer run. -/
lemma entered_append (h g : List (Fin N)) :
    entered (h ++ g) = entered h ++ entries (Threads.after ticket_lock h) g := by
  rw [entered, ticket_events, trace_append, List.filterMap_append]
  rfl

/-- Tickets are only ever added. -/
lemma taken_prefix (h g : List (Fin N)) : ∃ more, taken (h ++ g) = taken h ++ more := by
  rw [taken, ticket_events, trace_append, List.filterMap_append]
  exact ⟨_, rfl⟩

/-- Those who took a ticket are those who entered and those who wait for their turn. -/
lemma waiting_after (le : N ≤ 2 ^ 16) (h : List (Fin N)) : ∃ waiting, taken h = entered h ++ waiting ∧
    waiting.Nodup ∧ ∀ {t k}, HasTicket (Threads.after ticket_lock h) t k → t ∈ waiting := by
  obtain ⟨served, queue, holder, hist⟩ := history_after le h
  rw [taken, entered, hist.taken, hist.entered]
  cases holder with
  | none =>
    exact ⟨queue, by simp, hist.queued.nodup, fun waits => hist.queued.mem_iff.mpr (.inr ⟨_, waits⟩)⟩
  | some u =>
    have here := (hist.inside u).mpr rfl
    obtain ⟨rest, rfl⟩ := List.head?_eq_some_iff.mp (hist.queued.head_of_inside here)
    refine ⟨rest, by simp, (List.nodup_cons.mp hist.queued.nodup).2, fun {t k} waits => ?_⟩
    have ne : t ≠ u := fun same => waits.not_inside (same ▸ here)
    exact (List.mem_cons.mp (hist.queued.mem_iff.mpr (.inr ⟨k, waits⟩))).resolve_left ne

/-- While a thread waits with its ticket, no other thread enters twice. -/
lemma entries_nodup (le : N ≤ 2 ^ 16) {h g : List (Fin N)} {k : uint}
    (waits : HasTicket (Threads.after ticket_lock h) t k)
    (out : t ∉ entries (Threads.after ticket_lock h) g) :
    (entries (Threads.after ticket_lock h) g ++ [t]).Nodup := by
  obtain ⟨waiting, before, nodup, mem⟩ := waiting_after le h
  obtain ⟨waiting', after, _, _⟩ := waiting_after le (h ++ g)
  obtain ⟨more, grown⟩ := taken_prefix h g
  have order : entries (Threads.after ticket_lock h) g ++ waiting' = waiting ++ more := by
    rw [entered_append, List.append_assoc] at after
    rw [before, List.append_assoc] at grown
    exact List.append_cancel_left (after.symm.trans grown)
  obtain ⟨a, b, rfl⟩ := List.append_of_mem (mem waits)
  -- those who enter are the first of those who wait, and `t` is not yet among them
  obtain ⟨c, rfl⟩ : ∃ c, a = entries (Threads.after ticket_lock h) g ++ c := by
    rw [List.append_assoc, List.append_eq_append_iff] at order
    rcases order with ⟨c, rfl, _⟩ | ⟨c, longer, same⟩
    · exact ⟨c, rfl⟩
    · cases c with
      | nil => exact ⟨[], by rw [List.append_nil, longer, List.append_nil]⟩
      | cons v c =>
        obtain ⟨rfl, _⟩ := List.cons.inj same
        exact absurd (by rw [longer]; simp) out
  refine nodup.sublist ?_
  rw [List.append_assoc]
  refine (List.Sublist.refl _).append (List.singleton_sublist.mpr ?_)
  exact List.mem_append_right c List.mem_cons_self

/-- A thread that gets in by an access has entered by it. -/
lemma event_of_inside (out : ¬s.inside t) (inside : (s.step i).inside t) :
    i = t ∧ ticket_event s i = some (.entered i) := by
  by_cases same : i = t
  · subst same
    refine ⟨rfl, ?_⟩
    cases e : s.phase i with
    | outside =>
      rw [step_outside e] at inside
      exact ((Threads.move_inside_self ..).mp inside).elim
    | acquiring a =>
      cases a with
      | fetch =>
        rw [step_fetch e] at inside
        exact ((Threads.move_inside_self ..).mp inside).elim
      | spin my_ticket =>
        by_cases turn : s.lock.now_serving.setWidth 32 = my_ticket
        · simp [ticket_event, e, step_turn e turn]
        · rw [step_wait e turn] at inside
          exact ((Threads.move_inside_self ..).mp inside).elim
    | critical => exact absurd (by rw [Threads.inside, e]; trivial) out
    | releasing r => exact absurd (by rw [Threads.inside, e]; trivial) out
  · exact absurd ((Threads.move_inside_of_ne s _ _ (Ne.symm same)).mp inside) out

/-- A thread that has entered by an access is inside. -/
lemma inside_of_event (event : ticket_event s i = some (.entered t)) : (s.step i).inside t := by
  unfold ticket_event at event
  split at event
  · simp at event
  · rename_i critical
    obtain rfl : i = t := by simpa using event
    rw [Threads.inside, critical]
    trivial
  · simp at event
  · simp at event

/-- The entries of one step more. -/
lemma entries_succ (w : ℕ → Fin N) (d : ℕ) : entries s (firsts w (d + 1)) = entries s (firsts w d) ++
    ((ticket_event (run Threads.step s (firsts w d)) (w d)).bind LockEvent.enterer).toList := by
  rw [firsts_add, entries, trace_append, List.filterMap_append]
  congr 1
  show List.filterMap _ ((ticket_event _ (w d)).toList ++ []) = _
  cases ticket_event (run Threads.step s (firsts w d)) (w d) with
  | none => rfl
  | some e => cases e <;> rfl

/-- A thread that is never inside does not enter. -/
lemma not_mem_entries (w : ℕ → Fin N) {d : ℕ}
    (out : ∀ k, k ≤ d → ¬(run Threads.step s (firsts w k)).inside t) : t ∉ entries s (firsts w d) := by
  induction d with
  | zero => simp [entries, firsts, trace]
  | succ d ih =>
    rw [entries_succ, List.mem_append]
    rintro (before | last)
    · exact ih (fun k le => out k (Nat.le_succ_of_le le)) before
    · obtain ⟨e, event, enters⟩ := Option.bind_eq_some_iff.mp (Option.mem_toList.mp last)
      cases e with
      | entered u =>
        obtain rfl : u = t := Option.some.inj enters
        exact out (d + 1) le_rfl (by
          rw [run_firsts_succ]
          exact inside_of_event event)
      | _ => cases enters

end Bypass

section Ahead
variable {s : Threads ticket_lock N} {t i : Fin N} {served queue : List (Fin N)} {holder : Option (Fin N)}
variable {es : List (LockEvent N)}

/-- How many accesses a thread of the queue has to make until it leaves, if it is its turn. -/
def stage : Phase ticket_lock → ℕ
  | .outside => 0
  | .acquiring _ => 4
  | .critical => 3
  | .releasing TicketRelease.read => 2
  | .releasing (TicketRelease.write _) => 1

/-- A thread has at most four stages before it. -/
lemma stage_le (phase : Phase ticket_lock) : stage phase ≤ 4 := by
  unfold stage
  split <;> decide

/-- The thread `t` waits for its turn, and the head of the queue is `j`. -/
def Ahead (t : Fin N) (r : ℕ) (j : Fin N) (s : Threads ticket_lock N) : Prop :=
  ∃ es served queue holder d, History s es served queue holder ∧ queue[d]? = some t ∧
    queue.head? = some j ∧ ¬s.inside t ∧ r = 4 * d + stage (s.phase j)

/-- Every access leads the head of the queue on or leaves it where it is, until `t` is inside. -/
lemma ahead_step (le : N ≤ 2 ^ 16) {r : ℕ} {j : Fin N} (ahead : Ahead t r j s) (i : Fin N) :
    (s.step i).inside t ∨ ∃ r' j', Ahead t r' j' (s.step i) ∧ (r' < r ∨ r' = r ∧ j' = j ∧ i ≠ j) := by
  obtain ⟨es, served, queue, holder, d, hist, ht, head, out, rfl⟩ := ahead
  have place := hist.queued.place i
  have hj : j ∈ queue := List.mem_of_head? head
  refine or_iff_not_imp_left.mpr fun stays => ?_
  -- another thread moves, and the head of the queue stays
  have other : ∀ {queue' holder'}, (∃ es, History (s.step i) es served queue' holder') →
      queue'[d]? = some t → queue'.head? = some j → i ≠ j →
      ∃ r' j', Ahead t r' j' (s.step i) ∧ (r' < 4 * d + stage (s.phase j) ∨
        r' = 4 * d + stage (s.phase j) ∧ j' = j ∧ i ≠ j) := by
    rintro queue' holder' ⟨es, hist'⟩ ht head ne
    refine ⟨_, j, ⟨es, served, queue', holder', d, hist', ht, head, stays, rfl⟩, .inr ⟨?_, rfl, ne⟩⟩
    rw [show (s.step i).phase j = s.phase j from Threads.move_phase_of_ne s _ _ ne.symm]
  -- the head of the queue moves on
  have own : ∀ {holder'}, (∃ es, History (s.step i) es served queue holder') → i = j →
      stage ((s.step i).phase i) < stage (s.phase i) →
      ∃ r' j', Ahead t r' j' (s.step i) ∧ (r' < 4 * d + stage (s.phase j) ∨
        r' = 4 * d + stage (s.phase j) ∧ j' = j ∧ i ≠ j) := by
    rintro holder' ⟨es, hist'⟩ rfl less
    exact ⟨_, i, ⟨es, served, queue, holder', d, hist', ht, head, stays, rfl⟩,
      .inl (Nat.add_lt_add_left less _)⟩
  cases e : s.phase i with
  | outside =>
    rw [e] at place
    have ne : i ≠ j := fun same => place (same ▸ hj)
    refine other ⟨_, hist.silent (step_outside e) ?_ place ?_⟩ ht head ne
    · simp [ticket_event, e]
    · rw [e]
      rfl
  | acquiring a =>
    cases a with
    | fetch =>
      rw [e] at place
      have ne : i ≠ j := fun same => place (same ▸ hj)
      have lt := (List.getElem?_eq_some_iff.mp ht).1
      refine other ⟨_, hist.fetch e⟩ ?_ ?_ ne
      · rw [List.getElem?_append_left lt, ht]
      · rw [List.head?_append, head]
        rfl
    | spin my_ticket =>
      by_cases turn : s.lock.now_serving.setWidth 32 = my_ticket
      · have first : queue.head? = some i := ((hist.queued.turn_iff le).mp (by rw [turn]; exact e)).1
        refine own ⟨_, hist.enter le e turn⟩ (Option.some.inj (first.symm.trans head)) ?_
        rw [step_turn e turn, Threads.move_phase_self, e]
        exact show 3 < 4 by decide
      · -- another round of the loop
        have ne : i ≠ j := by
          rintro rfl
          have waits : HasTicket s i my_ticket := e
          have served' := (hist.queued.turn_iff le).mpr ⟨head, waits.not_inside⟩
          rw [HasTicket, e] at served'
          injection served' with same
          injection same with same
          exact turn same.symm
        have step := step_wait e turn
        rw [e] at place
        refine other ⟨_, hist.silent step ?_ place ?_⟩ ht head ne
        · simp [ticket_event, e, step]
        · rw [e]
  | critical =>
    rw [e] at place
    have same : i = j := Option.some.inj ((show queue.head? = some i from place).symm.trans head)
    refine own ⟨_, hist.silent (step_critical e) ?_ place ?_⟩ same ?_
    · simp [ticket_event, e]
    · rw [e]
      rfl
    · rw [step_critical e, Threads.move_phase_self, e]
      decide
  | releasing a =>
    rw [e] at place
    cases a with
    | read =>
      have same : i = j := Option.some.inj ((show queue.head? = some i from place).symm.trans head)
      have step := step_read e
      refine own ⟨_, hist.silent step ?_ ⟨place, hist.queued.serving⟩ ?_⟩ same ?_
      · simp [ticket_event, e, step]
      · rw [e]
        rfl
      · rw [step, Threads.move_phase_self, e]
        exact show 1 < 2 by decide
    | write v =>
      obtain rfl : i = j := Option.some.inj (place.1.symm.trans head)
      obtain ⟨rest, hist'⟩ := hist.leave e
      obtain rfl : queue = i :: rest := by
        have event : ticket_event s i = some (.released i) := by
          simp [ticket_event, e, step_write e]
        have no_taker : (some (LockEvent.released i)).toList.filterMap LockEvent.taker = [] := rfl
        have taken := hist'.taken
        rw [event, List.filterMap_append, hist.taken, no_taker, List.append_nil, List.append_assoc] at taken
        exact List.append_cancel_left taken
      cases d with
      | zero =>
        obtain rfl : i = t := by simpa using ht
        exact absurd (by rw [Threads.inside, e]; trivial) out
      | succ d =>
        -- the next one of the queue is served
        rw [List.getElem?_cons_succ] at ht
        obtain ⟨u, head'⟩ : ∃ u, rest.head? = some u := by
          cases rest with
          | nil => simp at ht
          | cons u rest => exact ⟨u, rfl⟩
        refine ⟨_, u, ⟨_, _, rest, none, d, hist', ht, head', stays, rfl⟩, .inl ?_⟩
        have high := stage_le ((s.step i).phase u)
        have low : stage (s.phase i) = 1 := by rw [e]; rfl
        omega

end Ahead

/-- A thread that has taken its ticket enters under every fair schedule, and between its fetch-and-add and its
entry no thread enters twice. -/
theorem ticket_starvation_free (N : ℕ) (le : N ≤ 65536) (w : ℕ → Fin N) (fair : Fair (fun _ => True) w)
    (n : ℕ) (t : Fin N) (waits : ∃ k, HasTicket (Threads.after ticket_lock (firsts w n)) t k) :
    ∃ m others, n ≤ m ∧ (Threads.after ticket_lock (firsts w m)).inside t ∧
      entered (firsts w m) = entered (firsts w n) ++ (others ++ [t]) ∧ (others ++ [t]).Nodup := by
  obtain ⟨k, waits⟩ := waits
  have out := waits.not_inside
  obtain ⟨d₀, enters⟩ : ∃ d, (Threads.after ticket_lock (firsts w (n + d))).inside t := by
    obtain ⟨served, queue, holder, hist⟩ := history_after le (firsts w n)
    obtain ⟨d, ht⟩ := List.mem_iff_getElem?.mp (hist.queued.mem_iff.mpr (.inr ⟨k, waits⟩))
    obtain ⟨j, head⟩ : ∃ j, queue.head? = some j := by
      cases queue with
      | nil => simp at ht
      | cons j rest => exact ⟨j, rfl⟩
    obtain ⟨m, after, inside⟩ := fair.reaches (Q := fun s => Threads.inside s t) (R := Ahead t)
      (fun _ _ _ i ahead => ahead_step le ahead i) (fun _ _ _ _ => trivial)
      ⟨_, served, queue, holder, d, hist, ht, head, out, rfl⟩
    obtain ⟨d, rfl⟩ := Nat.exists_eq_add_of_le after
    exact ⟨d, inside⟩
  -- the access by which `t` enters
  classical
  obtain ⟨d, inside, before⟩ : ∃ d, (Threads.after ticket_lock (firsts w (n + d))).inside t ∧
      ∀ c < d, ¬(Threads.after ticket_lock (firsts w (n + c))).inside t :=
    have some : ∃ d, (Threads.after ticket_lock (firsts w (n + d))).inside t := ⟨d₀, enters⟩
    ⟨Nat.find some, Nat.find_spec some, fun _ lt => Nat.find_min some lt⟩
  cases d with
  | zero => exact absurd inside out
  | succ d =>
    have waited : t ∉ entries (Threads.after ticket_lock (firsts w n)) (firsts (fun k => w (n + k)) d) := by
      refine not_mem_entries _ fun c le => ?_
      have := before c (Nat.lt_succ_of_le le)
      rwa [firsts_add, Threads.after, run_append] at this
    have still := before d (Nat.lt_succ_self d)
    rw [← Nat.add_assoc, Threads.after, run_firsts_succ] at inside
    obtain ⟨rfl, event⟩ := event_of_inside still inside
    refine ⟨n + d + 1, entries (Threads.after ticket_lock (firsts w n)) (firsts (fun k => w (n + k)) d), ?_, ?_,
      ?_, entries_nodup le waits waited⟩
    · exact (Nat.le_add_right n d).trans (Nat.le_succ _)
    · rwa [Threads.after, run_firsts_succ]
    · rw [Threads.after, firsts_add, run_append] at event
      rw [Nat.add_assoc, firsts_add, entered_append, entries_succ, Threads.after, event]
      rfl

/-- Two threads take turns, and the one that waits enters. -/
theorem ticket_starvation_free_two : ∃ m, 5 ≤ m ∧
    (Threads.after ticket_lock (firsts (round_robin (0 : Fin 2) [1]) m)).inside 1 := by
  have waits : HasTicket (Threads.after ticket_lock (firsts (round_robin (0 : Fin 2) [1]) 5)) 1 (ticket 1) :=
    rfl
  obtain ⟨m, _, le, inside, _⟩ := ticket_starvation_free 2 (by decide) (round_robin 0 [1])
    (fun t _ => fair_round_robin 0 [1] t (by fin_cases t <;> simp)) 5 1 ⟨_, waits⟩
  exact ⟨m, le, inside⟩

/-! ## The spin locks of one word -/

section TwoState
variable {L : Lock} {taken : L.Shared} {s : Threads L N} {u : Fin N}

/-- A round in which `u` takes the lock, all others call for it, and `u` gives it back. -/
def selfish_round (u : Fin N) : List (Fin N) := u :: ((List.finRange N).filter (· ≠ u) ++ [u, u])

/-- Nobody is inside, and `u` is about to call for the lock. -/
structure Idle (taken : L.Shared) (u : Fin N) (s : Threads L N) : Prop where
  one : OneInside taken s
  outside : s.phase u = .outside
  out : ∀ v, ¬s.inside v

/-- The thread `u` is inside. -/
structure Busy (taken : L.Shared) (u : Fin N) (s : Threads L N) : Prop where
  one : OneInside taken s
  critical : s.phase u = .critical

/-- Nobody else is inside. -/
def Alone (u : Fin N) (s : Threads L N) : Prop := ∀ v, s.inside v → v = u

/-- Where one thread is busy it is the only one. -/
lemma Busy.alone (busy : Busy taken u s) : Alone u s := by
  have here : s.inside u := by
    rw [Threads.inside, busy.critical]
    trivial
  exact fun v => ((busy.one.of_inside here).2 v).mp

/-- The thread takes the lock. -/
lemma Idle.enter (two : TwoState L taken) (idle : Idle taken u s) :
    Alone u (s.step u) ∧ Busy taken u ((s.step u).step u) := by
  have free := idle.one.of_outside idle.out
  have first : s.step u = s.move u s.lock (.acquiring L.acquire) :=
    step_of_next (by rw [idle.outside, Phase.next])
  have second : (s.step u).step u = (s.step u).move u taken .critical := by
    refine step_of_next ?_
    rw [first, Threads.move_phase_self, Threads.move_lock, Phase.next, free, two.free]
    rfl
  have out : ∀ v, ¬(s.step u).inside v := by
    intro v inside
    rw [first] at inside
    by_cases same : v = u
    · subst same
      exact (Threads.move_inside_self ..).mp inside
    · exact idle.out v ((Threads.move_inside_of_ne s _ _ same).mp inside)
  refine ⟨fun v inside => absurd inside (out v), (idle.one.step two u).step two u, ?_⟩
  rw [second, Threads.move_phase_self]

/-- The others call in vain. -/
lemma Busy.step (two : TwoState L taken) (busy : Busy taken u s) {v : Fin N} (ne : v ≠ u) :
    Busy taken u (s.step v) :=
  ⟨busy.one.step two v, (Threads.move_phase_of_ne s _ _ ne.symm).trans busy.critical⟩

/-- The thread gives the lock back. -/
lemma Busy.leave (two : TwoState L taken) (busy : Busy taken u s) :
    Alone u (s.step u) ∧ Idle taken u ((s.step u).step u) := by
  have first : s.step u = s.move u s.lock (.releasing L.release) :=
    step_of_next (by rw [busy.critical, Phase.next])
  have here : (s.step u).inside u := by
    rw [first, Threads.move_inside_self]
    trivial
  have one := busy.one.step two u
  obtain ⟨lock, only⟩ := one.of_inside here
  have second : (s.step u).step u = (s.step u).move u L.init .outside := by
    refine step_of_next ?_
    rw [first] at lock
    rw [first, Threads.move_phase_self, Threads.move_lock, Phase.next,
      show s.lock = taken from lock, two.release]
    rfl
  refine ⟨fun v => (only v).mp, one.step two u, ?_, fun v inside => ?_⟩
  · rw [second, Threads.move_phase_self]
  · rw [second] at inside
    by_cases same : v = u
    · subst same
      exact (Threads.move_inside_self ..).mp inside
    · exact same ((only v).mp ((Threads.move_inside_of_ne _ _ _ same).mp inside))

/-- After a round nobody is inside, and during the round nobody else was. -/
lemma Idle.round (two : TwoState L taken) (idle : Idle taken u s) :
    Idle taken u (run Threads.step s (u :: selfish_round u)) ∧
      Throughout Threads.step (Alone u) s (u :: selfish_round u) := by
  obtain ⟨alone, busy⟩ := idle.enter two
  have others : Throughout Threads.step (Busy taken u) _ ((List.finRange N).filter (· ≠ u)) :=
    throughout_invariant (A := (· ≠ u)) (fun s v ne busy => busy.step two ne) busy (by simp)
  have busy' := others _ List.prefix_rfl
  obtain ⟨alone', idle'⟩ := busy'.leave two
  refine ⟨?_, ?_⟩
  · rw [selfish_round, run_cons, run_cons, run_append]
    exact idle'
  · rw [selfish_round, throughout_cons, throughout_cons, throughout_append, throughout_cons, throughout_cons]
    refine ⟨fun v inside => absurd inside (idle.out v), alone, fun g pre => (others g pre).alone, busy'.alone,
      alone', throughout_iff.mpr ⟨fun v inside => absurd inside (idle'.out v), trivial⟩⟩

/-- Under a lock of two states one thread can be let in each time. -/
lemma two_state_starves (two : TwoState L taken) (u : Fin N) :
    ∃ w : ℕ → Fin N, Fair (fun _ => True) w ∧ (∀ n, ∃ m, n ≤ m ∧ (Threads.after L (firsts w m)).inside u) ∧
      ∀ n, Alone u (Threads.after L (firsts w n)) := by
  have start : Idle taken u (Threads.start : Threads L N) := ⟨.inl ⟨rfl, fun _ => id⟩, rfl, fun _ => id⟩
  obtain ⟨rounds, all⟩ := round_robin_invariant (fun s (idle : Idle taken u s) => idle.round two) start
  refine ⟨round_robin u (selfish_round u), fun t _ => ?_, fun n => ?_, all⟩
  · refine fair_round_robin u _ t ?_
    by_cases same : t = u
    · exact same ▸ List.mem_cons_self
    · refine List.mem_cons_of_mem _ (List.mem_cons_of_mem _ (List.mem_append_left _ ?_))
      exact List.mem_filter.mpr ⟨List.mem_finRange t, by simpa using same⟩
  · refine ⟨n * ((selfish_round u).length + 1) + 2, ?_, ?_⟩
    · exact (Nat.le_mul_of_pos_right n (Nat.succ_pos _)).trans (Nat.le_add_right _ _)
    · have busy := ((rounds n).enter two).2
      rw [Threads.after, firsts_round_robin u _ n (by simp [selfish_round]), run_append]
      show Threads.inside (((run Threads.step _ _).step u).step u) u
      rw [Threads.inside, busy.critical]
      trivial

/-- A thread that is never inside goes on calling once it has called. -/
lemma calls_step {t i : Fin N} (out : ¬s.inside t) (out' : ¬(s.step i).inside t)
    (calls : i = t ∨ ∃ a, s.phase t = .acquiring a) : ∃ a, (s.step i).phase t = .acquiring a := by
  by_cases same : i = t
  · subst same
    cases e : s.phase i with
    | outside =>
      rw [step_of_next (by rw [e, Phase.next]), Threads.move_phase_self]
      exact ⟨_, rfl⟩
    | acquiring a =>
      rw [Threads.inside] at out'
      rw [step_of_next (by rw [e, Phase.next]), Threads.move_phase_self] at out' ⊢
      cases next : (L.acquire_step a s.lock).2 with
      | none => exact absurd (by rw [next]; trivial) out'
      | some b => exact ⟨b, rfl⟩
    | critical => exact absurd (by rw [Threads.inside, e]; trivial) out
    | releasing r => exact absurd (by rw [Threads.inside, e]; trivial) out
  · obtain ⟨a, calls⟩ := calls.resolve_left same
    exact ⟨a, (Threads.move_phase_of_ne s _ _ (Ne.symm same)).trans calls⟩

end TwoState

/-- The compare-and-swap and the test-and-set lock starve threads: there is a fair schedule under which one
thread enters again and again and all others wait in their loops for ever. -/
theorem word_locks_starve (type : lock_types) (word : type ≠ .TICKET) (N : ℕ) (u : Fin N) :
    ∃ w : ℕ → Fin N, Fair (fun _ => True) w ∧
      (∀ n, ∃ m, n ≤ m ∧ (Threads.after type.lock (firsts w m)).inside u) ∧
      ∀ t, t ≠ u → ∃ n, ∀ m, n ≤ m → ∃ a, (Threads.after type.lock (firsts w m)).phase t = .acquiring a := by
  obtain ⟨w, fair, again, alone⟩ : ∃ w : ℕ → Fin N, Fair (fun _ => True) w ∧
      (∀ n, ∃ m, n ≤ m ∧ (Threads.after type.lock (firsts w m)).inside u) ∧
      ∀ n, Alone u (Threads.after type.lock (firsts w n)) := by
    cases type with
    | COMPARE_AND_SWAP => exact two_state_starves caslock_two_state u
    | TEST_AND_SET => exact two_state_starves taslock_two_state u
    | TICKET => exact absurd rfl word
  refine ⟨w, fair, again, fun t ne => ?_⟩
  have out : ∀ n, ¬(Threads.after type.lock (firsts w n)).inside t := fun n inside => ne (alone n t inside)
  have next : ∀ n, Threads.after type.lock (firsts w (n + 1)) =
      (Threads.after type.lock (firsts w n)).step (w n) := fun n => run_firsts_succ n
  obtain ⟨k, _, turn⟩ := fair t trivial 0
  refine ⟨k + 1, fun m le => ?_⟩
  induction m, le using Nat.le_induction with
  | base =>
    have after := out (k + 1)
    rw [next] at after ⊢
    exact calls_step (out k) after (.inl turn)
  | succ m _ ih =>
    have after := out (m + 1)
    rw [next] at after ⊢
    exact calls_step (out m) after (.inr ih)

/-- Two threads at a test-and-set lock: the first one waits for ever. -/
theorem word_locks_starve_two : ∃ w : ℕ → Fin 2, Fair (fun _ => True) w ∧
    ∃ n, ∀ m, n ≤ m → ∃ a, (Threads.after taslock (firsts w m)).phase 0 = .acquiring a := by
  obtain ⟨w, fair, _, waits⟩ := word_locks_starve .TEST_AND_SET (by decide) 2 1
  exact ⟨w, fair, waits 0 (by decide)⟩

end CS519.Locks
