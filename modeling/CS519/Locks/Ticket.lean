import Mathlib.Data.Fintype.Card
import Mathlib.Data.List.Nodup
import Mathlib.Tactic
import CS519.Locks.Lock

/-!
# The ticket lock

The threads that have taken a ticket and not yet given it back form a queue. `Queued` says what the two
counters and the places of all threads are for a given queue: the tickets are consecutive, counted modulo
`2 ^ 16`, and only the head of the queue is served. With no more than `2 ^ 16` threads the tickets in the
queue are different, so exactly the head can enter. Together with the events so far (`History`) this is
an invariant of every schedule; from it follow mutual exclusion (`ticket_mutual_exclusion`) and
first come, first served (`ticket_fcfs`).
-/

namespace CS519.Locks
variable {N : ℕ}

/-- What a schedule shows of the lock. -/
inductive LockEvent (N : ℕ) where
  | took (t : Fin N)
  | entered (t : Fin N)
  | released (t : Fin N)
deriving DecidableEq, Repr

namespace LockEvent

def taker : LockEvent N → Option (Fin N)
  | took t => some t
  | _ => none

def enterer : LockEvent N → Option (Fin N)
  | entered t => some t
  | _ => none

def releaser : LockEvent N → Option (Fin N)
  | released t => some t
  | _ => none

end LockEvent

/-- The event of a thread's next access: its fetch-and-add, the end of its acquire, or the end of its
release. -/
def ticket_event (s : Threads ticket_lock N) (t : Fin N) : Option (LockEvent N) :=
  match s.phase t, (s.step t).phase t with
  | .acquiring TicketAcquire.fetch, _ => some (.took t)
  | .acquiring _, .critical => some (.entered t)
  | .releasing _, .outside => some (.released t)
  | _, _ => none

/-- The events of a schedule. -/
def ticket_events (h : List (Fin N)) : List (LockEvent N) :=
  trace Threads.step ticket_event Threads.start h

/-- The threads in the order of their fetch-and-add operations. -/
def taken (h : List (Fin N)) : List (Fin N) := (ticket_events h).filterMap LockEvent.taker

/-- The threads in the order in which they entered their critical sections. -/
def entered (h : List (Fin N)) : List (Fin N) := (ticket_events h).filterMap LockEvent.enterer

/-- The threads in the order in which they ended their releases. -/
def released (h : List (Fin N)) : List (Fin N) := (ticket_events h).filterMap LockEvent.releaser

/-- The `n`-th ticket, as a thread holds it. -/
def ticket (n : ℕ) : uint := (BitVec.ofNat 16 n).setWidth 32

/-- The thread waits in the loop of its acquire with a ticket. -/
def HasTicket (s : Threads ticket_lock N) (t : Fin N) (my_ticket : uint) : Prop :=
  s.phase t = .acquiring (TicketAcquire.spin my_ticket)

/-- A thread that waits with its ticket is not inside. -/
lemma HasTicket.not_inside {s : Threads ticket_lock N} {t : Fin N} {my_ticket : uint}
    (waits : HasTicket s t my_ticket) : ¬s.inside t := by
  rw [Threads.inside, show s.phase t = _ from waits]
  exact id

/-- Where a thread may be, if `served` threads have been served and `queue` holds the others that took a
ticket. -/
def Place (served : ℕ) (queue : List (Fin N)) (t : Fin N) : Phase ticket_lock → Prop
  | .outside => t ∉ queue
  | .acquiring TicketAcquire.fetch => t ∉ queue
  | .acquiring (TicketAcquire.spin my_ticket) =>
    ∃ j, queue[j]? = some t ∧ my_ticket = ticket (served + j)
  | .critical => queue.head? = some t
  | .releasing TicketRelease.read => queue.head? = some t
  | .releasing (TicketRelease.write now_serving) =>
    queue.head? = some t ∧ now_serving = BitVec.ofNat 16 served

/-- The counters and the threads agree with the queue. -/
structure Queued (s : Threads ticket_lock N) (served : ℕ) (queue : List (Fin N)) : Prop where
  next : s.lock.next_ticket = BitVec.ofNat 16 (served + queue.length)
  serving : s.lock.now_serving = BitVec.ofNat 16 served
  nodup : queue.Nodup
  place : ∀ t, Place served queue t (s.phase t)

/-! ## The accesses of a thread -/

section Access
variable {s : Threads ticket_lock N} {t : Fin N} {my_ticket : uint} {now_serving : ushort}

/-- A thread calls for the lock. -/
lemma step_outside (e : s.phase t = .outside) :
    s.step t = s.move t s.lock (.acquiring TicketAcquire.fetch) := by
  simp only [Threads.step, e]
  rfl

/-- A thread takes a ticket. -/
lemma step_fetch (e : s.phase t = .acquiring TicketAcquire.fetch) :
    s.step t = s.move t { s.lock with next_ticket := s.lock.next_ticket + 1 }
      (.acquiring (TicketAcquire.spin (s.lock.next_ticket.setWidth 32))) := by
  simp only [Threads.step, e]
  rfl

/-- A thread whose turn it is enters. -/
lemma step_turn (e : s.phase t = .acquiring (TicketAcquire.spin my_ticket))
    (turn : s.lock.now_serving.setWidth 32 = my_ticket) : s.step t = s.move t s.lock .critical := by
  have : Phase.next (s.phase t) s.lock = (s.lock, Phase.critical) := by
    rw [e, Phase.next]
    simp [ticket_acquire, turn]
  simp only [Threads.step, this]

/-- A thread whose turn it is not goes on waiting. -/
lemma step_wait (e : s.phase t = .acquiring (TicketAcquire.spin my_ticket))
    (turn : s.lock.now_serving.setWidth 32 ≠ my_ticket) :
    s.step t = s.move t s.lock (.acquiring (TicketAcquire.spin my_ticket)) := by
  have : Phase.next (s.phase t) s.lock = (s.lock, .acquiring (TicketAcquire.spin my_ticket)) := by
    rw [e, Phase.next]
    simp [ticket_acquire, turn]
  simp only [Threads.step, this]

/-- A thread begins to release the lock. -/
lemma step_critical (e : s.phase t = .critical) :
    s.step t = s.move t s.lock (.releasing TicketRelease.read) := by
  simp only [Threads.step, e]
  rfl

/-- A thread reads `now_serving`. -/
lemma step_read (e : s.phase t = .releasing TicketRelease.read) :
    s.step t = s.move t s.lock (.releasing (TicketRelease.write s.lock.now_serving)) := by
  simp only [Threads.step, e]
  rfl

/-- A thread writes what it has read and one more. -/
lemma step_write (e : s.phase t = .releasing (TicketRelease.write now_serving)) :
    s.step t = s.move t { s.lock with now_serving := now_serving + 1 } .outside := by
  simp only [Threads.step, e]
  rfl

end Access

/-- The invariant of every schedule: those who took a ticket have been served or are in the queue, in the
order of their tickets, and those who entered have been served or are inside. -/
structure History (s : Threads ticket_lock N) (es : List (LockEvent N)) (served queue : List (Fin N))
    (holder : Option (Fin N)) : Prop where
  queued : Queued s served.length queue
  inside : ∀ t, s.inside t ↔ holder = some t
  taken : es.filterMap LockEvent.taker = served ++ queue
  entered : es.filterMap LockEvent.enterer = served ++ holder.toList
  released : es.filterMap LockEvent.releaser = served

section Step
variable {s : Threads ticket_lock N} {t : Fin N} {served : ℕ} {queue : List (Fin N)}

/-- At the start nobody has a ticket. -/
lemma Queued.start : Queued (Threads.start : Threads ticket_lock N) 0 [] where
  next := rfl
  serving := rfl
  nodup := .nil
  place _ := List.not_mem_nil

/-- At the start nothing has happened. -/
lemma History.start : History (Threads.start : Threads ticket_lock N) [] [] [] none where
  queued := .start
  inside t := by simp [Threads.inside, Threads.start, Phase.inside]
  taken := rfl
  entered := rfl
  released := rfl

/-- A queue without repetitions is no longer than the number of threads. -/
lemma Queued.length_le (q : Queued s served queue) : queue.length ≤ N := by
  have := q.nodup.length_le_card
  rwa [Fintype.card_fin] at this

/-- The thread inside is the head of the queue. -/
lemma Queued.head_of_inside (q : Queued s served queue) (h : s.inside t) : queue.head? = some t := by
  have place := q.place t
  unfold Threads.inside at h
  cases e : s.phase t with
  | outside => simp [e, Phase.inside] at h
  | acquiring a => simp [e, Phase.inside] at h
  | critical =>
    rw [e] at place
    exact place
  | releasing r =>
    rw [e] at place
    cases r with
    | read => exact place
    | write v => exact place.1

/-- Tickets in a short queue are different. -/
lemma ticket_inj {n j : ℕ} (lt : j < 2 ^ 16) (h : ticket n = ticket (n + j)) : j = 0 := by
  have := congrArg BitVec.toNat h
  simp only [ticket, BitVec.toNat_setWidth, BitVec.toNat_ofNat] at this
  omega

/-- The threads of the queue are those that wait and the one inside. -/
lemma Queued.mem_iff (q : Queued s served queue) :
    t ∈ queue ↔ s.inside t ∨ ∃ k, HasTicket s t k := by
  have place := q.place t
  unfold Threads.inside HasTicket
  cases e : s.phase t with
  | outside =>
    rw [e] at place
    have out : t ∉ queue := place
    simp [Phase.inside, out]
  | acquiring a =>
    rw [e] at place
    cases a with
    | fetch =>
      have out : t ∉ queue := place
      simp [Phase.inside, out]
    | spin my_ticket =>
      obtain ⟨j, mem, _⟩ := place
      exact iff_of_true (List.mem_of_getElem? mem) (.inr ⟨my_ticket, rfl⟩)
  | critical =>
    rw [e] at place
    exact iff_of_true (List.mem_of_head? place) (.inl trivial)
  | releasing r =>
    refine iff_of_true (List.mem_of_head? (q.head_of_inside ?_)) (.inl trivial)
    simp [Threads.inside, e, Phase.inside]

/-- The waiter whose ticket is served is the head of the queue. -/
lemma Queued.turn_iff (le : N ≤ 2 ^ 16) (q : Queued s served queue) :
    HasTicket s t (s.lock.now_serving.setWidth 32) ↔ queue.head? = some t ∧ ¬s.inside t := by
  have place := q.place t
  constructor
  · intro waits
    rw [show s.phase t = _ from waits] at place
    obtain ⟨j, mem, turn⟩ := place
    have short : j < 2 ^ 16 := ((List.getElem?_eq_some_iff.mp mem).1.trans_le q.length_le).trans_le le
    rw [q.serving] at turn
    obtain rfl := ticket_inj short turn
    exact ⟨by rw [List.head?_eq_getElem?, mem], waits.not_inside⟩
  · intro ⟨head, out⟩
    rcases q.mem_iff.mp (List.mem_of_head? head) with inside | ⟨k, e⟩
    · exact (out inside).elim
    · rw [show s.phase t = _ from e] at place
      obtain ⟨j, mem, rfl⟩ := place
      have zero : j = 0 := by
        rw [List.head?_eq_getElem?, ← mem] at head
        have lt := (List.getElem?_eq_some_iff.mp mem).1
        exact ((List.getElem?_inj (by omega) q.nodup).mp head).symm
      rw [zero] at e
      rw [q.serving]
      exact e

/-- A thread moves: what is to be shown of the counters, of the thread and of the others. -/
lemma Queued.move (q : Queued s served queue) {lock : ticket_lock_t} {served' : ℕ}
    {queue' : List (Fin N)} {phase : Phase ticket_lock}
    (next : lock.next_ticket = BitVec.ofNat 16 (served' + queue'.length))
    (serving : lock.now_serving = BitVec.ofNat 16 served') (nodup : queue'.Nodup)
    (own : Place served' queue' t phase)
    (others : ∀ u, u ≠ t → Place served queue u (s.phase u) → Place served' queue' u (s.phase u)) :
    Queued (s.move t lock phase) served' queue' where
  next := next
  serving := serving
  nodup := nodup
  place u := by
    by_cases e : u = t
    · subst e
      rw [Threads.move_phase_self]
      exact own
    · rw [Threads.move_phase_of_ne s lock phase e]
      exact others u e (q.place u)

/-- A thread that joins the end of the queue does not change the place of the others. -/
lemma Place.snoc {phase : Phase ticket_lock} {u : Fin N} (ne : u ≠ t)
    (place : Place served queue u phase) : Place served (queue ++ [t]) u phase := by
  have head : ∀ {u}, queue.head? = some u → (queue ++ [t]).head? = some u := by
    intro u h
    rw [List.head?_append, h]
    rfl
  cases phase with
  | outside =>
    show u ∉ queue ++ [t]
    have : u ∉ queue := place
    simp [this, ne]
  | acquiring a =>
    cases a with
    | fetch =>
      show u ∉ queue ++ [t]
      have : u ∉ queue := place
      simp [this, ne]
    | spin my_ticket =>
      obtain ⟨j, mem, e⟩ := place
      have lt : j < queue.length := (List.getElem?_eq_some_iff.mp mem).1
      exact ⟨j, by rw [List.getElem?_append_left lt, mem], e⟩
  | critical => exact head place
  | releasing r =>
    cases r with
    | read => exact head place
    | write v => exact ⟨head place.1, place.2⟩

/-- The others move up when the head leaves the queue. -/
lemma Place.tail {phase : Phase ticket_lock} {u : Fin N} {rest : List (Fin N)} (ne : u ≠ t)
    (place : Place served (t :: rest) u phase) : Place (served + 1) rest u phase := by
  have head : ¬(t :: rest).head? = some u := by simpa using ne.symm
  cases phase with
  | outside =>
    show u ∉ rest
    have : u ∉ t :: rest := place
    exact fun mem => this (List.mem_cons_of_mem t mem)
  | acquiring a =>
    cases a with
    | fetch =>
      show u ∉ rest
      have : u ∉ t :: rest := place
      exact fun mem => this (List.mem_cons_of_mem t mem)
    | spin my_ticket =>
      obtain ⟨j, mem, e⟩ := place
      cases j with
      | zero => exact (head (by simpa using mem)).elim
      | succ j =>
        refine ⟨j, by simpa using mem, ?_⟩
        rw [e, Nat.add_assoc, Nat.add_comm 1 j]
  | critical => exact (head place).elim
  | releasing r =>
    cases r with
    | read => exact (head place).elim
    | write v => exact (head place.1).elim

/-- Who is inside after a thread has moved. -/
lemma inside_move {lock : ticket_lock_t} {phase : Phase ticket_lock} {holder holder' : Option (Fin N)}
    (inside : ∀ u, s.inside u ↔ holder = some u) (own : phase.inside ↔ holder' = some t)
    (others : ∀ u, u ≠ t → (holder = some u ↔ holder' = some u)) :
    ∀ u, (s.move t lock phase).inside u ↔ holder' = some u := by
  intro u
  by_cases e : u = t
  · subst e
    rw [Threads.move_inside_self]
    exact own
  · rw [Threads.move_inside_of_ne s lock phase e]
    exact (inside u).trans (others u e)

end Step

section Run
variable {s : Threads ticket_lock N} {t : Fin N} {es : List (LockEvent N)}
variable {served queue : List (Fin N)} {holder : Option (Fin N)}

/-- An access that logs nothing and leaves the memory, the queue and the holder alone. -/
lemma History.silent (hist : History s es served queue holder) {phase : Phase ticket_lock}
    (step : s.step t = s.move t s.lock phase) (event : ticket_event s t = none)
    (own : Place served.length queue t phase) (same : phase.inside ↔ (s.phase t).inside) :
    History (s.step t) (es ++ (ticket_event s t).toList) served queue holder := by
  rw [event, step, Option.toList_none, List.append_nil]
  refine ⟨hist.queued.move hist.queued.next hist.queued.serving hist.queued.nodup own
    fun u _ place => place, ?_, hist.taken, hist.entered, hist.released⟩
  exact inside_move hist.inside (same.trans (hist.inside t)) fun u _ => Iff.rfl

/-- A thread takes a ticket and joins the queue. -/
lemma History.fetch (hist : History s es served queue holder)
    (e : s.phase t = .acquiring TicketAcquire.fetch) :
    History (s.step t) (es ++ (ticket_event s t).toList) served (queue ++ [t]) holder := by
  have event : ticket_event s t = some (.took t) := by simp [ticket_event, e]
  obtain ⟨⟨next, serving, nodup, place⟩, inside, taken, entered, released⟩ := hist
  have out : t ∉ queue := by
    have := place t
    rw [e] at this
    exact this
  rw [event, step_fetch e]
  refine ⟨Queued.move ⟨next, serving, nodup, place⟩ ?_ serving ?_ ?_ fun u ne => Place.snoc ne,
    inside_move inside ?_ fun u _ => Iff.rfl, ?_, ?_, ?_⟩
  · show s.lock.next_ticket + 1 = _
    rw [next, List.length_append, ← Nat.add_assoc]
    exact (BitVec.ofNat_add _ _).symm
  · exact nodup.append (List.nodup_singleton t) (by simpa using out)
  · exact ⟨queue.length, by simp, by rw [next, ticket]⟩
  · rw [← inside t, Threads.inside, e]
    rfl
  · simp [taken, LockEvent.taker]
  · simp [entered, LockEvent.enterer]
  · simp [released, LockEvent.releaser]

/-- A thread whose ticket is served is the head of the queue, and enters. -/
lemma History.enter (le : N ≤ 2 ^ 16) (hist : History s es served queue holder) {my_ticket : uint}
    (e : s.phase t = .acquiring (TicketAcquire.spin my_ticket))
    (turn : s.lock.now_serving.setWidth 32 = my_ticket) :
    History (s.step t) (es ++ (ticket_event s t).toList) served queue (some t) := by
  have step := step_turn e turn
  have event : ticket_event s t = some (.entered t) := by
    simp [ticket_event, e, step]
  obtain ⟨queued, inside, taken, entered, released⟩ := hist
  have head : queue.head? = some t := by
    have place := queued.place t
    rw [e] at place
    obtain ⟨j, mem, rfl⟩ := place
    have short : j < 2 ^ 16 :=
      ((List.getElem?_eq_some_iff.mp mem).1.trans_le queued.length_le).trans_le le
    rw [queued.serving] at turn
    obtain rfl := ticket_inj short turn
    rw [List.head?_eq_getElem?, mem]
  -- nobody else is inside, since that thread would be the head as well
  have none : holder = none := by
    cases h : holder with
    | none => rfl
    | some u =>
      have hu := (inside u).mpr h
      have := queued.head_of_inside hu
      rw [head] at this
      cases this
      simp [Threads.inside, e, Phase.inside] at hu
  subst none
  rw [event, step]
  refine ⟨queued.move queued.next queued.serving queued.nodup head fun u _ place => place,
    inside_move inside (by simp [Phase.inside]) fun u ne => ?_, ?_, ?_, ?_⟩
  · simp [ne.symm]
  · simp [taken, LockEvent.taker]
  · simp [entered, LockEvent.enterer]
  · simp [released, LockEvent.releaser]

/-- A thread ends its release, and the next one is served. -/
lemma History.leave (hist : History s es served queue holder) {now_serving : ushort}
    (e : s.phase t = .releasing (TicketRelease.write now_serving)) :
    ∃ rest, History (s.step t) (es ++ (ticket_event s t).toList) (served ++ [t]) rest none := by
  have step := step_write e
  have event : ticket_event s t = some (.released t) := by
    simp [ticket_event, e, step]
  obtain ⟨queued, inside, taken, entered, released⟩ := hist
  have here : holder = some t := (inside t).mp (by simp [Threads.inside, e, Phase.inside])
  have place := queued.place t
  rw [e] at place
  obtain ⟨head, rfl⟩ := place
  obtain ⟨rest, rfl⟩ : ∃ rest, queue = t :: rest := by
    cases queue with
    | nil => simp at head
    | cons u rest =>
      have : u = t := by simpa using head
      exact ⟨rest, by rw [this]⟩
  obtain ⟨out, nodup⟩ := List.nodup_cons.mp queued.nodup
  have len : (served ++ [t]).length = served.length + 1 := by simp
  subst here
  rw [event, step]
  refine ⟨rest, ?_, inside_move inside (by simp [Phase.inside]) fun u ne => ?_, ?_, ?_, ?_⟩
  · rw [len]
    refine queued.move ?_ ?_ nodup out fun u ne => Place.tail ne
    · simp only [queued.next, List.length_cons]
      rw [Nat.add_assoc, Nat.add_comm 1]
    · simp only [BitVec.ofNat_add]
      rfl
  · simp [ne.symm]
  · simp [taken, LockEvent.taker]
  · simp [entered, LockEvent.enterer]
  · simp [released, LockEvent.releaser]

/-- Every access keeps the invariant. -/
lemma History.step (le : N ≤ 2 ^ 16) (hist : History s es served queue holder) (t : Fin N) :
    ∃ served' queue' holder',
      History (s.step t) (es ++ (ticket_event s t).toList) served' queue' holder' := by
  have place := hist.queued.place t
  cases e : s.phase t with
  | outside =>
    rw [e] at place
    refine ⟨served, queue, holder, hist.silent (step_outside e) ?_ place ?_⟩
    · simp [ticket_event, e]
    · rw [e]
      rfl
  | acquiring a =>
    cases a with
    | fetch => exact ⟨_, _, _, hist.fetch e⟩
    | spin my_ticket =>
      by_cases turn : s.lock.now_serving.setWidth 32 = my_ticket
      · exact ⟨_, _, _, hist.enter le e turn⟩
      · -- another round of the loop
        have step := step_wait e turn
        rw [e] at place
        refine ⟨served, queue, holder, hist.silent step ?_ place ?_⟩
        · simp [ticket_event, e, step]
        · rw [e]
  | critical =>
    rw [e] at place
    refine ⟨served, queue, holder, hist.silent (step_critical e) ?_ place ?_⟩
    · simp [ticket_event, e]
    · rw [e]
      rfl
  | releasing r =>
    cases r with
    | read =>
      have step := step_read e
      rw [e] at place
      refine ⟨served, queue, holder, hist.silent step ?_ ⟨place, hist.queued.serving⟩ ?_⟩
      · simp [ticket_event, e, step]
      · rw [e]
        rfl
    | write v =>
      obtain ⟨rest, hist'⟩ := hist.leave e
      exact ⟨_, _, _, hist'⟩

/-- The invariant holds after every schedule. -/
lemma history_after (le : N ≤ 2 ^ 16) (h : List (Fin N)) : ∃ served queue holder,
    History (Threads.after ticket_lock h) (ticket_events h) served queue holder := by
  have start : ∃ served queue holder,
      History (Threads.start : Threads ticket_lock N) [] served queue holder :=
    ⟨_, _, _, .start⟩
  refine trace_invariant (I := fun s es => ∃ served queue holder,
    History s es served queue holder) (fun s es t hist => ?_) start h
  obtain ⟨served, queue, holder, hist⟩ := hist
  exact hist.step le t

end Run

/-- The ticket lock keeps all threads but one out. -/
lemma ticket_excludes (le : N ≤ 2 ^ 16) : ticket_lock.Excludes N := by
  intro h t u ht hu
  obtain ⟨served, queue, holder, hist⟩ := history_after le h
  have et := hist.queued.head_of_inside ht
  have eu := hist.queued.head_of_inside hu
  exact Option.some.inj (et.symm.trans eu)

/-! ## One thread too many -/

section Overflow

/-- Threads that are outside call the lock and take a ticket, one after the other. -/
def take_tickets (l : List (Fin N)) : List (Fin N) := l.flatMap fun t => [t, t]

/-- The threads of a list have consecutive tickets after they have taken them in this order. -/
lemma run_take_tickets (l : List (Fin N)) : ∀ {s : Threads ticket_lock N} {n : ℕ}, l.Nodup →
    (∀ t ∈ l, s.phase t = .outside) → s.lock.next_ticket = BitVec.ofNat 16 n →
      (run Threads.step s (take_tickets l)).lock.now_serving = s.lock.now_serving ∧
      (∀ t, t ∉ l → (run Threads.step s (take_tickets l)).phase t = s.phase t) ∧
      ∀ i t, l[i]? = some t → (run Threads.step s (take_tickets l)).phase t =
        .acquiring (TicketAcquire.spin (ticket (n + i))) := by
  induction l with
  | nil => exact fun {s n} _ _ _ => ⟨rfl, fun _ _ => rfl, fun i t h => by simp at h⟩
  | cons u l ih =>
    intro s n nodup outside next
    obtain ⟨out, nodup⟩ := List.nodup_cons.mp nodup
    have first := step_outside (outside u List.mem_cons_self)
    have e : (s.step u).phase u = .acquiring TicketAcquire.fetch := by
      rw [first, Threads.move_phase_self]
    have second := step_fetch e
    rw [first, Threads.move_lock, next] at second
    have others : ∀ t, t ≠ u → ((s.step u).step u).phase t = s.phase t := by
      intro t ne
      rw [first, second, Threads.move_phase_of_ne _ _ _ ne, Threads.move_phase_of_ne _ _ _ ne]
    have joined : ((s.step u).step u).phase u = .acquiring (TicketAcquire.spin (ticket n)) := by
      rw [first, second, Threads.move_phase_self]
      rfl
    have next' : ((s.step u).step u).lock.next_ticket = BitVec.ofNat 16 (n + 1) := by
      rw [first, second, BitVec.ofNat_add]
      rfl
    have serving : ((s.step u).step u).lock.now_serving = s.lock.now_serving := by
      rw [first, second]
      rfl
    have outside' : ∀ t ∈ l, ((s.step u).step u).phase t = .outside := by
      intro t mem
      have ne : t ≠ u := fun e => out (e ▸ mem)
      rw [others t ne]
      exact outside t (List.mem_cons_of_mem u mem)
    obtain ⟨serving', rest, spin⟩ := ih nodup outside' next'
    have cons : run Threads.step s (take_tickets (u :: l)) =
        run Threads.step ((s.step u).step u) (take_tickets l) := rfl
    rw [cons]
    refine ⟨serving'.trans serving, fun t no => ?_, fun i t h => ?_⟩
    · have ne : t ≠ u := fun e => no (e ▸ List.mem_cons_self)
      rw [rest t fun mem => no (List.mem_cons_of_mem u mem), others t ne]
    · cases i with
      | zero =>
        obtain rfl : u = t := by simpa using h
        rw [rest u out, joined]
        rfl
      | succ i =>
        rw [spin i t (by simpa using h), Nat.add_assoc, Nat.add_comm 1]

/-- With more threads than there are tickets, two of them can have the same ticket, and both enter. -/
lemma ticket_overflow (lt : 2 ^ 16 < N) : ∃ (h : List (Fin N)) (t u : Fin N), t ≠ u ∧
    (Threads.after ticket_lock h).inside t ∧ (Threads.after ticket_lock h).inside u := by
  obtain ⟨serving, _, spin⟩ := run_take_tickets (List.finRange N) (s := Threads.start) (n := 0)
    (List.nodup_finRange N) (fun _ _ => rfl) rfl
  generalize e : run Threads.step Threads.start (take_tickets (List.finRange N)) = s
    at serving spin
  have place : ∀ t : Fin N,
      s.phase t = .acquiring (TicketAcquire.spin (ticket (0 + t.val))) := by
    intro t
    apply spin t t
    rw [List.getElem?_eq_some_iff]
    exact ⟨by simp, by simp⟩
  have turn : s.lock.now_serving.setWidth 32 = ticket 0 := by
    rw [serving]
    rfl
  have ne : (⟨2 ^ 16, lt⟩ : Fin N) ≠ ⟨0, by omega⟩ := by
    intro same
    have := congrArg Fin.val same
    simp at this
  -- the first thread enters, and the last one holds the same ticket
  have first := step_turn (place ⟨0, by omega⟩) turn
  have waits : (s.step ⟨0, by omega⟩).phase ⟨2 ^ 16, lt⟩ =
      .acquiring (TicketAcquire.spin (ticket 0)) := by
    have wrap : ticket (0 + 2 ^ 16) = ticket 0 := by decide
    rw [first, Threads.move_phase_of_ne s s.lock .critical ne, place]
    exact congrArg (fun k => (Phase.acquiring (TicketAcquire.spin k) : Phase ticket_lock)) wrap
  have second := step_turn waits (by rw [first]; exact turn)
  refine ⟨take_tickets (List.finRange N) ++ [⟨0, by omega⟩, ⟨2 ^ 16, lt⟩], ⟨2 ^ 16, lt⟩,
    ⟨0, by omega⟩, ne, ?_, ?_⟩
  · rw [Threads.after, run_append, e, run_cons, run_cons, run_nil, second]
    simp [Phase.inside]
  · rw [Threads.after, run_append, e, run_cons, run_cons, run_nil, second,
      Threads.move_inside_of_ne _ _ _ ne.symm, first]
    simp [Phase.inside]

end Overflow

/-- The ticket lock keeps all threads but one out and loses no increment of `now_serving`, whatever the
schedule, for up to `2 ^ 16` threads; with one thread more two of them can be inside. -/
theorem ticket_mutual_exclusion :
    (∀ N ≤ 65536, ∀ h : List (Fin N),
      (∀ t u, (Threads.after ticket_lock h).inside t → (Threads.after ticket_lock h).inside u →
        t = u) ∧
      (Threads.after ticket_lock h).lock.now_serving = BitVec.ofNat 16 (released h).length) ∧
    ∃ (h : List (Fin 65537)) (t u : Fin 65537), t ≠ u ∧
      (Threads.after ticket_lock h).inside t ∧ (Threads.after ticket_lock h).inside u := by
  refine ⟨fun N le h => ⟨fun t u => ticket_excludes le h t u, ?_⟩, ticket_overflow (by omega)⟩
  obtain ⟨served, queue, holder, hist⟩ := history_after le h
  rw [released, hist.released]
  exact hist.queued.serving

/-- Two threads want the lock. -/
theorem ticket_mutual_exclusion_two :
    (Threads.after ticket_lock [(0 : Fin 2), 1, 0, 1, 0, 1]).lock.now_serving =
      BitVec.ofNat 16 (released [(0 : Fin 2), 1, 0, 1, 0, 1]).length :=
  (ticket_mutual_exclusion.1 2 (by decide) [0, 1, 0, 1, 0, 1]).2

/-- Critical sections are entered in the order of the fetch-and-add operations: those who have not
entered come last, and are the ones that wait. When nobody is inside and somebody waits, the ticket of
exactly one waiter is being served, of the one who took it first. -/
theorem ticket_fcfs (N : ℕ) (le : N ≤ 65536) (h : List (Fin N)) :
    ∃ waiting, taken h = entered h ++ waiting ∧ waiting.Nodup ∧
      (∀ t, t ∈ waiting ↔ ∃ k, HasTicket (Threads.after ticket_lock h) t k) ∧
      ((∀ t, ¬(Threads.after ticket_lock h).inside t) →
        (∃ t k, HasTicket (Threads.after ticket_lock h) t k) →
        ∃ first, waiting.head? = some first ∧ ∀ t,
          HasTicket (Threads.after ticket_lock h) t
            ((Threads.after ticket_lock h).lock.now_serving.setWidth 32) ↔ t = first) := by
  generalize e : Threads.after ticket_lock h = s
  obtain ⟨served, queue, holder, queued, inside, took, enter, _⟩ := history_after le h
  rw [e] at queued inside
  rw [taken, entered, took, enter]
  cases holder with
  | none =>
    have out : ∀ t, ¬s.inside t := fun t ht => by simpa using (inside t).mp ht
    have waits : ∀ t, t ∈ queue ↔ ∃ k, HasTicket s t k :=
      fun t => queued.mem_iff.trans (or_iff_right (out t))
    refine ⟨queue, by simp, queued.nodup, waits, fun _ some => ?_⟩
    obtain ⟨t, k, e⟩ := some
    cases queue with
    | nil => simpa using (waits t).mpr ⟨k, e⟩
    | cons first rest =>
      refine ⟨first, rfl, fun u => (queued.turn_iff le).trans ?_⟩
      rw [and_iff_left (out u), List.head?_cons, Option.some_inj]
      exact eq_comm
  | some u =>
    have here : s.inside u := (inside u).mpr rfl
    obtain ⟨rest, rfl⟩ : ∃ rest, queue = u :: rest := by
      have head := queued.head_of_inside here
      cases queue with
      | nil => simp at head
      | cons v rest =>
        obtain rfl : v = u := by simpa using head
        exact ⟨rest, rfl⟩
    obtain ⟨out, nodup⟩ := List.nodup_cons.mp queued.nodup
    refine ⟨rest, by simp, nodup, fun t => ?_, fun none => (none u here).elim⟩
    constructor
    · intro mem
      cases queued.mem_iff.mp (List.mem_cons_of_mem u mem) with
      | inl ht =>
        obtain rfl : u = t := by simpa using (inside t).mp ht
        exact (out mem).elim
      | inr waits => exact waits
    · intro ⟨k, waits⟩
      have ne : t ≠ u := fun same => waits.not_inside (same ▸ here)
      exact (List.mem_cons.mp (queued.mem_iff.mpr (.inr ⟨k, waits⟩))).resolve_left ne

/-- Of two threads that wait, the second one took its ticket first. -/
theorem ticket_fcfs_two : ∃ waiting, taken [(0 : Fin 2), 1, 1, 0] =
    entered [(0 : Fin 2), 1, 1, 0] ++ waiting ∧ waiting.Nodup := by
  obtain ⟨waiting, order, nodup, _⟩ := ticket_fcfs 2 (by decide) [0, 1, 1, 0]
  exact ⟨waiting, order, nodup⟩

end CS519.Locks
