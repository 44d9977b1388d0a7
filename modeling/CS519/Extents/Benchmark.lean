import CS519.Extents.Life

/-!
# The page-fault benchmark

The program that times the table. In every iteration `main` creates its threads and joins them; a thread
maps a buffer, touches each page of it, and unmaps it. Meanwhile the kernel handles other events, those of
other processes and other faults of this one.

The buffers leave no trace: whenever the threads of an iteration have been joined, all tables are as they
would be if the buffers had never been there (`leaves_no_trace`).
-/

namespace CS519.Extents
open CInt (INT_MAX)
open Function
variable {μ : Type} [DecidableEq μ] (rb : Rebalance ExtentNode)

/-- The command line. The size of a buffer, `num_pages * 4096`, is an `int`. -/
structure Settings where
  num_threads : ℕ
  num_pages : ℕ
  iterations : ℕ
  using_extents : Bool
  fits : num_pages * 4096 ≤ INT_MAX

/-- A thread of the benchmark, with the frames of its buffer. -/
inductive IncThread where
  | mmap
  | memset (frames : List ulong)
  | munmap (frames : List ulong)
  | returned

def IncThread.frames : IncThread → List ulong
  | memset frames | munmap frames => frames
  | mmap | returned => []

/-- What `main` does next. -/
inductive MainPc where
  | use_extents
  | iterate (i : ℕ)
  | create (i thread : ℕ)
  | join (i thread : ℕ)
  | finished
deriving DecidableEq

/-- The tables and the program. -/
structure Bench (μ : Type) where
  k : Mms μ
  main : MainPc
  threads : ℕ → Option IncThread

/-- A step of `main`, a step of a thread, or something else. The frame is the one that the kernel finds for
a fault of the thread, and `mapped` says whether the thread gets a buffer. -/
inductive BenchEvent (μ : Type) where
  | main
  | thread (i : ℕ) (mapped : Bool) (pfn : ulong)
  | other (e : LifeEvent μ)

namespace Bench
variable (o : Settings) (own : μ) (s : Bench μ)

def start (k : Mms μ) : Bench μ := ⟨k, .use_extents, fun _ => none⟩

/-- The thread `i` is created, moves on, or is joined. -/
def set_thread (i : ℕ) (thread : Option IncThread) : Bench μ :=
  { s with threads := update s.threads i thread }

/-- `main`. It waits for a thread that has not returned. -/
def main_step (pid : int) : Bench μ :=
  match s.main with
  | .use_extents =>
    { s with k := if o.using_extents then (s.k.sys_use_extents own pid 0).1 else s.k, main := .iterate 0 }
  | .iterate i => { s with main := if i < o.iterations then .create i 0 else .finished }
  | .create i thread =>
    if thread < o.num_threads then
      { s.set_thread thread (some .mmap) with main := .create i (thread + 1) }
    else { s with main := .join i 0 }
  | .join i thread =>
    if thread < o.num_threads then
      match s.threads thread with
      | some .returned => { s.set_thread thread none with main := .join i (thread + 1) }
      | _ => s
    else { s with main := .iterate (i + 1) }
  | .finished => s

/-- `inc_thread`. A buffer of no pages cannot be mapped. -/
def inc_thread (i : ℕ) (mapped : Bool) (pfn : ulong) : Bench μ :=
  match s.threads i with
  | none | some .returned => s
  | some .mmap => s.set_thread i (some (if mapped ∧ 0 < o.num_pages then .memset [] else .returned))
  | some (.memset frames) =>
    if frames.length < o.num_pages then
      { s.set_thread i (some (.memset (frames ++ [pfn]))) with
        k := s.k.do_anonymous_page rb (some own) pfn }
    else s.set_thread i (some (.munmap frames))
  | some (.munmap []) => s.set_thread i (some .returned)
  | some (.munmap (pfn :: frames)) =>
    { s.set_thread i (some (.munmap frames)) with k := s.k.zap_pte_range rb (some own) pfn }

end Bench

def bench_step (o : Settings) (own : μ) (pid : int) (s : Bench μ) : BenchEvent μ → Bench μ
  | .main => s.main_step o own pid
  | .thread i mapped pfn => s.inc_thread rb o own i mapped pfn
  | .other e => { s with k := life_step rb s.k e }

/-- What happens apart from the buffers. -/
def others (o : Settings) (own : μ) (pid : int) (s : Bench μ) : BenchEvent μ → Option (LifeEvent μ)
  | .main => if s.main = .use_extents ∧ o.using_extents then some (.use_extents own pid 0) else none
  | .thread _ _ _ => none
  | .other e => some e

/-- The frames of the buffer of each thread. -/
def Bench.frames (s : Bench μ) (i : ℕ) : List ulong := (s.threads i).elim [] IncThread.frames

/-- The frames in some buffers. -/
def held (n : ℕ) (frames : ℕ → List ulong) : Finset ulong :=
  (Finset.range n).biUnion fun i => (frames i).toFinset

/-- The table of an address space holds a frame. -/
def Mms.holds (k : Mms μ) (mm : μ) (pfn : ulong) : Prop := pfn ∈ pages (k.world mm).nodes

/-- A frame that the kernel finds for a fault is one that the table does not hold. -/
def finds (k : Mms μ) (mm : μ) (pfn : ulong) : Prop := is_pfn pfn ∧ ¬k.holds mm pfn

/-- The next step of a thread is a page fault. -/
def Bench.faults (o : Settings) (s : Bench μ) (i : ℕ) : Bool :=
  match s.threads i with
  | some (.memset frames) => frames.length < o.num_pages
  | _ => false

/-- What the kernel promises: it finds free frames, unmaps a buffer only when its thread says so, faults in
and unmaps pages on behalf of their own address space where a table is concerned, and creates and ends other
address spaces than the one in which the benchmark runs. -/
def promises (o : Settings) (own : μ) (s : Bench μ) : BenchEvent μ → Prop
  | .main => True
  | .thread i _ pfn => s.faults o i → finds s.k own pfn
  | .other (.mm_init mm _) => mm ≠ own ∧ (s.k.world mm).nodes = []
  | .other (.use_extents cur _ _) => cur ≠ own
  | .other (.fault cur mm pfn) =>
    finds s.k mm pfn ∧ (cur = mm ∨ s.k.use_extents cur = false ∧ s.k.use_extents mm = false)
  | .other (.zap cur mm pfn) =>
    (mm = own → pfn ∉ held o.num_threads s.frames) ∧
      (cur = some mm ∨ ¬s.k.holds mm pfn ∧ ∀ c ∈ cur, ¬s.k.holds c pfn)
  | .other (.exit_mmap mm) => mm ≠ own

instance (k : Mms μ) (mm : μ) (pfn : ulong) : Decidable (k.holds mm pfn) :=
  inferInstanceAs (Decidable (∃ en ∈ (k.world mm).nodes, extent_pte_contains en.ex pfn))

instance (k : Mms μ) (mm : μ) (pfn : ulong) : Decidable (finds k mm pfn) :=
  inferInstanceAs (Decidable (is_pfn pfn ∧ ¬k.holds mm pfn))

instance (o : Settings) (own : μ) (s : Bench μ) : DecidablePred (promises o own s)
  | .main => inferInstanceAs (Decidable True)
  | .thread i _ pfn => inferInstanceAs (Decidable (s.faults o i → finds s.k own pfn))
  | .other (.mm_init mm _) => inferInstanceAs (Decidable (mm ≠ own ∧ (s.k.world mm).nodes = []))
  | .other (.use_extents cur _ _) => inferInstanceAs (Decidable (cur ≠ own))
  | .other (.fault cur mm pfn) => inferInstanceAs (Decidable (finds s.k mm pfn ∧
      (cur = mm ∨ s.k.use_extents cur = false ∧ s.k.use_extents mm = false)))
  | .other (.zap cur mm pfn) => inferInstanceAs (Decidable ((mm = own → pfn ∉ held o.num_threads s.frames) ∧
      (cur = some mm ∨ ¬s.k.holds mm pfn ∧ ∀ c ∈ cur, ¬s.k.holds c pfn)))
  | .other (.exit_mmap mm) => inferInstanceAs (Decidable (mm ≠ own))

/-- The frames that the address spaces watch, with those of the buffers. -/
def watched (own : μ) (base : μ → Option (Finset ulong)) (buffers : Finset ulong) :
    μ → Option (Finset ulong) :=
  update base own ((base own).map (· ∪ buffers))

/-- No frame is in two buffers or twice in one, or also watched for another reason. -/
structure Separate (frames : ℕ → List ulong) (s : Finset ulong) : Prop where
  nodup : ∀ i, (frames i).Nodup
  apart : ∀ {i j p}, p ∈ frames i → p ∈ frames j → i = j
  fresh : ∀ {i p}, p ∈ frames i → p ∉ s

/-- The threads that there are not, at the places of `main`. -/
def MainPc.joined (n : ℕ) : MainPc → ℕ → Prop
  | use_extents, _ | iterate _, _ | finished, _ => True
  | create _ thread, i => thread ≤ i
  | join _ thread, i => i < thread ∨ n ≤ i

/-- What holds all along: the tables refine what is watched, with the buffers, and these lie apart. -/
structure Resides (o : Settings) (own : μ) (s : Bench μ) (base : μ → Option (Finset ulong)) : Prop where
  lives : Lives s.k (watched own base (held o.num_threads s.frames))
  apart : ∀ t, base own = some t → Separate s.frames t
  bound : ∀ i, o.num_threads ≤ i → s.threads i = none
  joined : ∀ i, s.main.joined o.num_threads i → s.threads i = none

section Held
variable {n i : ℕ} {frames : ℕ → List ulong} {p q : ulong}

/-- A frame is held if it is in the buffer of a thread. -/
lemma mem_held : p ∈ held n frames ↔ ∃ i < n, p ∈ frames i := by
  simp [held]

/-- A frame that is added to a buffer is held. -/
lemma held_append (lt : i < n) : held n (update frames i (frames i ++ [p])) = insert p (held n frames) := by
  ext q
  simp only [mem_held, Finset.mem_insert]
  constructor
  · rintro ⟨j, hj, mem⟩
    by_cases e : j = i
    · subst e
      rw [update_self, List.mem_append, List.mem_singleton] at mem
      exact mem.elim (fun mem => .inr ⟨j, hj, mem⟩) .inl
    · rw [update_of_ne e] at mem
      exact .inr ⟨j, hj, mem⟩
  · rintro (rfl | ⟨j, hj, mem⟩)
    · exact ⟨i, lt, by simp⟩
    · refine ⟨j, hj, ?_⟩
      by_cases e : j = i
      · subst e
        simp [mem]
      · rwa [update_of_ne e]

/-- A frame that leaves its buffer is held no longer, because it is in no other one. -/
lemma Separate.held_tail {s : Finset ulong} (sep : Separate frames s) {l : List ulong} (lt : i < n)
    (head : frames i = p :: l) : held n (update frames i l) = (held n frames).erase p := by
  have nodup := sep.nodup i
  rw [head, List.nodup_cons] at nodup
  have first : p ∈ frames i := head ▸ List.mem_cons_self
  ext q
  simp only [mem_held, Finset.mem_erase]
  constructor
  · rintro ⟨j, hj, mem⟩
    by_cases e : j = i
    · subst e
      rw [update_self] at mem
      refine ⟨?_, j, hj, head ▸ List.mem_cons_of_mem p mem⟩
      rintro rfl
      exact nodup.1 mem
    · rw [update_of_ne e] at mem
      refine ⟨?_, j, hj, mem⟩
      rintro rfl
      exact e (sep.apart mem first)
  · rintro ⟨ne, j, hj, mem⟩
    refine ⟨j, hj, ?_⟩
    by_cases e : j = i
    · subst e
      rw [head] at mem
      rw [update_self]
      exact (List.mem_cons.mp mem).resolve_left ne
    · rwa [update_of_ne e]

/-- A buffer loses frames. -/
lemma Separate.shrink {s : Finset ulong} (sep : Separate frames s) {l : List ulong} (sub : l.Sublist (frames i)) :
    Separate (update frames i l) s := by
  have old : ∀ {j p}, p ∈ update frames i l j → p ∈ frames j := by
    intro j p mem
    by_cases e : j = i
    · subst e
      rw [update_self] at mem
      exact sub.subset mem
    · rwa [update_of_ne e] at mem
  refine ⟨fun j => ?_, fun h h' => sep.apart (old h) (old h'), fun h => sep.fresh (old h)⟩
  by_cases e : j = i
  · subst e
    rw [update_self]
    exact (sep.nodup j).sublist sub
  · rw [update_of_ne e]
    exact sep.nodup j

/-- A buffer gets a frame that nobody has. -/
lemma Separate.grow {s : Finset ulong} (sep : Separate frames s) (none : ∀ j, p ∉ frames j) (new : p ∉ s) :
    Separate (update frames i (frames i ++ [p])) s := by
  have old : ∀ {j q}, q ∈ update frames i (frames i ++ [p]) j → q ∈ frames j ∨ q = p ∧ j = i := by
    intro j q mem
    by_cases e : j = i
    · subst e
      rw [update_self, List.mem_append, List.mem_singleton] at mem
      exact mem.imp_right fun e => ⟨e, rfl⟩
    · rw [update_of_ne e] at mem
      exact .inl mem
  refine ⟨fun j => ?_, fun h h' => ?_, fun h => ?_⟩
  · by_cases e : j = i
    · subst e
      rw [update_self]
      refine List.nodup_append.mpr ⟨sep.nodup j, List.nodup_singleton p, fun q hq r hr => ?_⟩
      rw [List.mem_singleton.mp hr]
      rintro rfl
      exact none j hq
    · rw [update_of_ne e]
      exact sep.nodup j
  · rcases old h with was | ⟨rfl, rfl⟩
    · rcases old h' with was' | ⟨rfl, rfl⟩
      · exact sep.apart was was'
      · exact absurd was (none _)
    · rcases old h' with was' | ⟨_, rfl⟩
      · exact absurd was' (none _)
      · rfl
  · rcases old h with h | ⟨rfl, _⟩
    · exact sep.fresh h
    · exact new

end Held

/-! ## What is watched -/

section Watched
variable {own mm : μ} {base : μ → Option (Finset ulong)} {buffers : Finset ulong} {pfn : ulong}

/-- The address space of the benchmark watches its buffers too. -/
@[simp] lemma watched_self : watched own base buffers own = (base own).map (· ∪ buffers) :=
  update_self own _ base

/-- The other address spaces watch no buffers. -/
lemma watched_of_ne (ne : mm ≠ own) : watched own base buffers mm = base mm :=
  update_of_ne ne _ base

/-- Without buffers nothing more is watched. -/
@[simp] lemma watched_empty : watched own base ∅ = base := by
  simp [watched]

/-- A change of what the address space of the benchmark watches. -/
@[simp] lemma watched_update_self (t : Option (Finset ulong)) :
    watched own (update base own t) buffers = update base own (t.map (· ∪ buffers)) := by
  simp [watched]

/-- An address space that has not opted in watches no buffer either. -/
lemma watched_of_none (none : base own = none) : watched own base buffers = base := by
  rw [watched, none, Option.map_none, ← none, update_eq_self]

/-- A change of what another address space watches. -/
lemma watched_update_of_ne (ne : mm ≠ own) (t : Option (Finset ulong)) :
    watched own (update base mm t) buffers = update (watched own base buffers) mm t := by
  rw [watched, watched, update_of_ne ne.symm, update_comm ne]

/-- A thread of the benchmark touches a page. -/
lemma life_spec_touch :
    life_spec (watched own base buffers) (.fault own own pfn) = watched own base (insert pfn buffers) := by
  rw [life_spec, watched_self, watched, update_idem, watched]
  cases base own with
  | none => rfl
  | some t => simp [Finset.union_insert]

/-- A thread of the benchmark unmaps a page. -/
lemma life_spec_untouch (fresh : ∀ t, base own = some t → pfn ∉ t) :
    life_spec (watched own base buffers) (.zap (some own) own pfn) =
      watched own base (buffers.erase pfn) := by
  rw [life_spec, watched_self, watched, update_idem, watched]
  cases e : base own with
  | none => rfl
  | some t =>
    simp only [Option.map_some, Finset.erase_union_distrib, Finset.erase_eq_of_notMem (fresh t e)]

/-- The other events find the buffers and leave them. -/
def leaves (own : μ) (buffers : Finset ulong) : LifeEvent μ → Prop
  | .mm_init mm _ | .exit_mmap mm | .use_extents mm _ _ => mm ≠ own
  | .fault _ _ _ => True
  | .zap _ mm pfn => mm = own → pfn ∉ buffers

/-- Other events do the same with and without the buffers. -/
lemma life_spec_other {e : LifeEvent μ} (lv : leaves own buffers e) :
    life_spec (watched own base buffers) e = watched own (life_spec base e) buffers := by
  cases e with
  | mm_init mm use_extents => rw [life_spec, life_spec, watched_update_of_ne lv]
  | use_extents cur pid flag =>
    rw [life_spec, life_spec]
    split
    · rw [watched_update_of_ne lv, watched_of_ne lv]
    · rfl
  | fault cur mm pfn =>
    by_cases same : mm = own
    · subst same
      rw [life_spec, life_spec, watched_self, watched, update_idem, watched_update_self]
      cases base mm with
      | none => rfl
      | some t => simp [Finset.insert_union]
    · rw [life_spec, life_spec, watched_update_of_ne same, watched_of_ne same]
  | zap cur mm pfn =>
    by_cases same : mm = own
    · subst same
      have absent : pfn ∉ buffers := lv rfl
      rw [life_spec, life_spec, watched_self, watched, update_idem, watched_update_self]
      cases base mm with
      | none => rfl
      | some t =>
        simp only [Option.map_some, Finset.erase_union_distrib, Finset.erase_eq_of_notMem absent]
    · rw [life_spec, life_spec, watched_update_of_ne same, watched_of_ne same]
  | exit_mmap mm => rw [life_spec, life_spec, watched_update_of_ne lv, watched_of_ne lv]

end Watched

/-! ## The steps of the program -/

section Steps
variable {o : Settings} {own : μ} {pid : int} {s : Bench μ} {base : μ → Option (Finset ulong)} {i : ℕ}

omit [DecidableEq μ] in
/-- The frames after a change of one thread. -/
lemma frames_set_thread (thread : Option IncThread) :
    (s.set_thread i thread).frames = update s.frames i (thread.elim [] IncThread.frames) := by
  funext j
  by_cases e : j = i
  · subst e
    simp [Bench.frames, Bench.set_thread]
  · simp [Bench.frames, Bench.set_thread, update_of_ne e]

omit [DecidableEq μ] in
/-- A thread that there is not has no buffer. -/
lemma frames_of_none (none : s.threads i = none) : s.frames i = [] := by
  rw [Bench.frames, none]
  rfl

omit [DecidableEq μ] in
/-- Without threads there are no buffers. -/
lemma no_buffers (none : ∀ i, s.threads i = none) (n : ℕ) (t : Finset ulong) :
    held n s.frames = ∅ ∧ Separate s.frames t := by
  have empty : ∀ i, s.frames i = [] := fun i => frames_of_none (none i)
  refine ⟨Finset.eq_empty_iff_forall_notMem.mpr fun p mem => ?_, fun i => by simp [empty],
    fun h => by simp [empty] at h, fun h => by simp [empty] at h⟩
  obtain ⟨j, _, mem⟩ := mem_held.mp mem
  simp [empty] at mem

/-- Without threads there are no buffers to account for. -/
lemma Resides.of_none (lives : Lives s.k base) (none : ∀ i, s.threads i = none) :
    Resides o own s base := by
  refine ⟨?_, fun t _ => (no_buffers none 0 t).2, fun i _ => none i, fun i _ => none i⟩
  rw [(no_buffers none _ ∅).1, watched_empty]
  exact lives

/-- Between two iterations the tables are those without the program. -/
lemma Resides.lives_of_none (res : Resides o own s base) (none : ∀ i, s.threads i = none) :
    Lives s.k base := by
  have lives := res.lives
  rwa [(no_buffers none _ ∅).1, watched_empty] at lives

/-- `main` creates or joins a thread that has no buffer. -/
lemma Resides.set_thread (res : Resides o own s base) {thread : Option IncThread} {main : MainPc}
    (before : s.frames i = []) (after : thread.elim [] IncThread.frames = []) (lt : i < o.num_threads)
    (joined : ∀ j, main.joined o.num_threads j → (s.set_thread i thread).threads j = none) :
    Resides o own { s.set_thread i thread with main } base := by
  have frames : Bench.frames { s.set_thread i thread with main } = s.frames := by
    have := frames_set_thread (s := s) (i := i) thread
    rwa [after, ← before, update_eq_self] at this
  refine ⟨?_, fun t watches => ?_, fun j le => ?_, joined⟩
  · rw [frames]
    exact res.lives
  · rw [frames]
    exact res.apart t watches
  · have ne : j ≠ i := by omega
    exact (update_of_ne ne _ _).trans (res.bound j le)

/-- A step of `main` touches no buffer. -/
lemma Resides.main_step (res : Resides o own s base) :
    Resides o own (s.main_step o own pid) (run life_spec base (others o own pid s .main).toList) := by
  have joined := res.joined
  cases pc : s.main with
  | use_extents =>
    rw [pc] at joined
    have none : ∀ i, s.threads i = none := fun i => joined i trivial
    have lives := res.lives_of_none none
    simp only [Bench.main_step, others, pc, true_and]
    cases o.using_extents with
    | true =>
      have used : Lives (life_step .plain s.k (.use_extents own pid 0)) _ := lives.step trivial
      exact .of_none used none
    | false => exact .of_none lives none
  | iterate n =>
    rw [pc] at joined
    have none : ∀ i, s.threads i = none := fun i => joined i trivial
    simp only [Bench.main_step, others, pc, reduceCtorEq, false_and]
    exact .of_none (res.lives_of_none none) none
  | create n thread =>
    rw [pc] at joined
    simp only [Bench.main_step, others, pc, reduceCtorEq, false_and]
    split
    · rename_i lt
      refine res.set_thread (frames_of_none (joined thread le_rfl)) rfl lt fun j le => ?_
      have ne : j ≠ thread := Nat.ne_of_gt le
      exact (update_of_ne ne _ _).trans (joined j (Nat.le_of_succ_le le))
    · exact ⟨res.lives, res.apart, res.bound, fun j h => res.bound j (h.resolve_left (Nat.not_lt_zero j))⟩
  | join n thread =>
    rw [pc] at joined
    simp only [Bench.main_step, others, pc, reduceCtorEq, false_and]
    split
    · rename_i lt
      split
      · rename_i returned
        refine res.set_thread (by rw [Bench.frames, returned]; rfl) rfl lt fun j h => ?_
        by_cases e : j = thread
        · subst e
          exact update_self j none s.threads
        · exact (update_of_ne e _ _).trans (joined j (h.imp_left fun h => by omega))
      · exact res
    · rename_i ge
      have all : ∀ j, j < thread ∨ o.num_threads ≤ j := fun j => by omega
      exact ⟨res.lives, res.apart, res.bound, fun j _ => joined j (all j)⟩
  | finished =>
    simp only [Bench.main_step, others, pc, reduceCtorEq, false_and]
    exact res

variable {rb}

/-- A thread moves on, with its buffer. -/
lemma Resides.move (res : Resides o own s base) {th th' : IncThread} (runs : s.threads i = some th)
    {k : Mms μ} (lives : Lives k (watched own base (held o.num_threads (update s.frames i th'.frames))))
    (separate : ∀ t, base own = some t → Separate (update s.frames i th'.frames) t) :
    Resides o own { s.set_thread i (some th') with k } base := by
  have frames : Bench.frames { s.set_thread i (some th') with k } = update s.frames i th'.frames :=
    frames_set_thread (some th')
  have running : ∀ j, s.threads j = none → j ≠ i := by
    rintro j none rfl
    simp [runs] at none
  refine ⟨by rwa [frames], fun t watches => by rw [frames]; exact separate t watches, fun j le => ?_,
    fun j h => ?_⟩
  · exact (update_of_ne (running j (res.bound j le)) _ _).trans (res.bound j le)
  · exact (update_of_ne (running j (res.joined j h)) _ _).trans (res.joined j h)

/-- A thread moves on and keeps its buffer. -/
lemma Resides.keep (res : Resides o own s base) {th th' : IncThread} (runs : s.threads i = some th)
    (same : th'.frames = th.frames) : Resides o own (s.set_thread i (some th')) base := by
  have frames : update s.frames i th'.frames = s.frames := by
    rw [same, show th.frames = s.frames i by rw [Bench.frames, runs]; rfl, update_eq_self]
  refine res.move (k := s.k) runs ?_ ?_
  · rw [frames]
    exact res.lives
  · rw [frames]
    exact res.apart

/-- A frame that the kernel finds is not watched. -/
lemma Resides.not_watched (res : Resides o own s base) {mm : μ} {pfn : ulong} (absent : ¬s.k.holds mm pfn) :
    pfn ∉ (watched own base (held o.num_threads s.frames) mm).getD ∅ :=
  fun mem => absent (((res.lives.refines mm).mem pfn).mpr mem)

/-- The next frame of a buffer is in no buffer. -/
lemma Resides.not_in_buffers (res : Resides o own s base) {pfn : ulong}
    (absent : pfn ∉ held o.num_threads s.frames) (j : ℕ) : pfn ∉ s.frames j := by
  intro mem
  by_cases lt : j < o.num_threads
  · exact absent (mem_held.mpr ⟨j, lt, mem⟩)
  · rw [frames_of_none (res.bound j (not_lt.mp lt))] at mem
    exact List.not_mem_nil mem

/-- What a thread unmaps is its own. -/
lemma Resides.untouched (res : Resides o own s base) {pfn : ulong} {frames : List ulong}
    (lt : i < o.num_threads) (here : s.frames i = pfn :: frames) :
    life_spec (watched own base (held o.num_threads s.frames)) (.zap (some own) own pfn) =
      watched own base (held o.num_threads (update s.frames i frames)) := by
  have first : pfn ∈ s.frames i := here ▸ List.mem_cons_self
  rw [life_spec_untouch fun t watches => (res.apart t watches).fresh first]
  cases watches : base own with
  | none => rw [watched_of_none watches, watched_of_none watches]
  | some t => rw [(res.apart t watches).held_tail lt here]

/-- A step of a thread moves a frame into its buffer or out of it. -/
lemma Resides.inc_thread (res : Resides o own s base) {mapped : Bool} {pfn : ulong}
    (found : s.faults o i → finds s.k own pfn) : Resides o own (s.inc_thread rb o own i mapped pfn) base := by
  cases runs : s.threads i with
  | none =>
    simp only [Bench.inc_thread, runs]
    exact res
  | some th =>
    have lt : i < o.num_threads := by
      by_contra ge
      simp [res.bound i (not_lt.mp ge)] at runs
    have here : s.frames i = th.frames := by
      rw [Bench.frames, runs]
      rfl
    cases th with
    | returned =>
      simp only [Bench.inc_thread, runs]
      exact res
    | mmap =>
      simp only [Bench.inc_thread, runs]
      refine res.keep runs ?_
      split <;> rfl
    | memset frames =>
      simp only [Bench.inc_thread, runs]
      split
      · rename_i more
        obtain ⟨frame, absent⟩ := found (by simp [Bench.faults, runs, more])
        have fresh := res.not_watched absent
        have touched : Lives (life_step rb s.k (.fault own own pfn)) _ :=
          res.lives.step ⟨⟨frame, fresh⟩, .inl rfl⟩
        rw [life_spec_touch, ← held_append lt, here] at touched
        refine res.move runs touched fun t watches => ?_
        rw [watched_self, watches] at fresh
        obtain ⟨new, absent⟩ := not_or.mp (mt Finset.mem_union.mpr fresh)
        have grown := (res.apart t watches).grow (i := i) (res.not_in_buffers absent) new
        rwa [here] at grown
      · exact res.keep runs rfl
    | munmap frames =>
      cases frames with
      | nil =>
        simp only [Bench.inc_thread, runs]
        exact res.keep runs rfl
      | cons pfn frames =>
        simp only [Bench.inc_thread, runs]
        have unmapped : Lives (life_step rb s.k (.zap (some own) own pfn)) _ := res.lives.step (.inl rfl)
        rw [res.untouched lt here] at unmapped
        refine res.move runs unmapped fun t watches => (res.apart t watches).shrink ?_
        rw [here]
        exact List.sublist_cons_self pfn frames

/-! ## What else happens -/

/-- Buffers lie apart from a set that has no more of their frames. -/
lemma Separate.weaken {frames : ℕ → List ulong} {t t' : Finset ulong} (sep : Separate frames t)
    (fresh : ∀ i p, p ∈ frames i → p ∈ t' → p ∈ t) : Separate frames t' :=
  ⟨sep.nodup, sep.apart, fun mem mem' => sep.fresh mem (fresh _ _ mem mem')⟩

/-- Where the kernel keeps its promises, another event does what it does without the buffers. -/
lemma Resides.other (res : Resides o own s base) {e : LifeEvent μ} (kept : promises o own s (.other e)) :
    Resides o own { s with k := life_step rb s.k e } (life_spec base e) := by
  have admitted : life_admits (watched own base (held o.num_threads s.frames)) e := by
    cases e with
    | mm_init mm use_extents =>
      have none : pages (s.k.world mm).nodes = ∅ := by simp [kept.2]
      refine Finset.eq_empty_iff_forall_notMem.mpr fun p mem => ?_
      rw [← (res.lives.refines mm).mem, none] at mem
      exact mem
    | fault cur mm pfn =>
      obtain ⟨⟨frame, absent⟩, own⟩ := kept
      refine ⟨⟨frame, res.not_watched absent⟩, own.imp_right fun none => ?_⟩
      exact ⟨res.lives.unused_iff.mp none.1, res.lives.unused_iff.mp none.2⟩
    | zap cur mm pfn =>
      exact kept.2.imp_right fun none =>
        ⟨res.not_watched none.1, fun c mem => res.not_watched (none.2 c mem)⟩
    | use_extents cur pid flag | exit_mmap mm => trivial
  have lv : leaves own (held o.num_threads s.frames) e := by
    cases e with
    | mm_init mm use_extents => exact kept.1
    | fault cur mm pfn => trivial
    | zap cur mm pfn => exact kept.1
    | use_extents cur pid flag | exit_mmap mm => exact kept
  have lives : Lives (life_step rb s.k e) _ := res.lives.step admitted
  rw [life_spec_other lv] at lives
  refine ⟨lives, fun t watches => ?_, res.bound, res.joined⟩
  cases e with
  | mm_init mm use_extents | exit_mmap mm =>
    rw [life_spec, update_of_ne (Ne.symm lv)] at watches
    exact res.apart t watches
  | use_extents cur pid flag =>
    rw [life_spec] at watches
    split at watches
    · rw [update_of_ne (Ne.symm lv)] at watches
      exact res.apart t watches
    · exact res.apart t watches
  | fault cur mm pfn =>
    by_cases same : mm = own
    · subst same
      rw [life_spec, update_self] at watches
      obtain ⟨t', watches', rfl⟩ := Option.map_eq_some_iff.mp watches
      have fresh := res.not_watched kept.1.2
      rw [watched_self, watches'] at fresh
      have absent := (not_or.mp (mt Finset.mem_union.mpr fresh)).2
      refine (res.apart t' watches').weaken fun i p mem mem' => ?_
      refine (Finset.mem_insert.mp mem').resolve_left ?_
      rintro rfl
      exact res.not_in_buffers absent i mem
    · rw [life_spec, update_of_ne (Ne.symm same)] at watches
      exact res.apart t watches
  | zap cur mm pfn =>
    by_cases same : mm = own
    · subst same
      rw [life_spec, update_self] at watches
      obtain ⟨t', watches', rfl⟩ := Option.map_eq_some_iff.mp watches
      exact (res.apart t' watches').weaken fun i p _ mem' => Finset.mem_of_mem_erase mem'
    · rw [life_spec, update_of_ne (Ne.symm same)] at watches
      exact res.apart t watches

/-- Every step keeps the invariant. -/
lemma resides_step (res : Resides o own s base) {e : BenchEvent μ} (kept : promises o own s e) :
    Resides o own (bench_step rb o own pid s e) (run life_spec base (others o own pid s e).toList) := by
  cases e with
  | main => exact res.main_step
  | thread i mapped pfn => exact res.inc_thread kept
  | other e => exact res.other kept

end Steps

/-- In every run of the benchmark among other events, the tables hold what they would hold without it and
the frames of its buffers. Before and after every iteration they hold what they would hold without it. -/
theorem leaves_no_trace {k : Mms μ} {w : μ → Option (Finset ulong)} (lives : Lives k w) (o : Settings)
    (own : μ) (pid : int) {h : List (BenchEvent μ)}
    (adm : Always (bench_step rb o own pid) (promises o own) (.start k) h) :
    let s := run (bench_step rb o own pid) (.start k) h
    let base := run life_spec w (trace (bench_step rb o own pid) (others o own pid) (.start k) h)
    Lives s.k (watched own base (held o.num_threads s.frames)) ∧
      ((s.main = .finished ∨ ∃ i, s.main = .iterate i) → Lives s.k base) := by
  intro s base
  have start : Resides o own (.start k) w := .of_none lives fun _ => rfl
  have res : Resides o own s base := by
    refine trace_invariant_of_always (I := fun s l => Resides o own s (run life_spec w l))
      (fun s l e kept res => ?_) start adm
    rw [run_append]
    exact resides_step res kept
  refine ⟨res.lives, fun between => res.lives_of_none fun i => res.joined i ?_⟩
  rcases between with finished | ⟨n, iterate⟩
  · rw [finished]
    trivial
  · rw [iterate]
    trivial

/-- A thread with a buffer of two pages, and a fault on the stack in between. -/
theorem leaves_no_trace_stack :
    let o : Settings := ⟨1, 2, 1, true, by decide⟩
    let h : List (BenchEvent Unit) := [.main, .main, .main, .thread 0 true 7, .thread 0 true 7,
      .other (.fault () () 9), .thread 0 true 8, .thread 0 true 3, .main, .thread 0 true 3, .thread 0 true 3,
      .thread 0 true 3, .main, .main, .main]
    pages ((run (bench_step .plain o () 1) (.start (.start fun _ => false)) h).k.world ()).nodes =
      ({9} : Finset ulong) := by
  intro o h
  have adm : Always (bench_step .plain o () 1) (promises o ()) (.start (.start fun _ => false)) h := by
    decide
  have lives := (leaves_no_trace .plain .boot o () 1 adm).2 (.inl (by decide))
  exact (lives.refines ()).pages.trans (congrArg _ (by decide))

end CS519.Extents
