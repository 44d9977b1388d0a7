import CS519.Sched.Fork

/-!
# The programs that call `set_inactive`

The benchmark marks its threads inactive while they spin, and active again before it reads off what they
have executed. The matrix multiplication marks a thread when its rows are done. Both make the calls from
threads that `main` creates, so the flag of a thread also depends on the one that `main` was started with.

`penalised_iff` says which threads the scheduler penalises, in every interleaving of the two programs and
of what else runs on the machine: exactly the marked ones if `main` was started active, and exactly the
others if it was started by an inactive task.
-/

namespace CS519.Sched
open Function

inductive Program where
  | benchmark
  | matrix
deriving DecidableEq

/-- The command lines. All benchmarks have been started with the same one, and so have all matrix
multiplications. -/
structure Options where
  cooperative : Program → Bool
  num_threads : Program → ℕ

/-- What a thread of either program does next. -/
inductive Pc where
  -- `main`
  | create (program : Program) (i : ℕ)
  | join (program : Program)
  | exit (program : Program)
  -- `spin_thread`
  | init
  | deactivate
  | spin
  | read_vruntime
  | reactivate
  | read_fields
  -- `thread_func`
  | transpose
  | barrier
  | multiply
  | notify
  | read_switches
  | returned (program : Program)
deriving DecidableEq

namespace Pc
variable (opts : Options)

/-- The function that the threads of a program run. -/
def entry : Program → Pc
  | .benchmark => init
  | .matrix => transpose

/-- The thread that a step creates starts here. -/
def creates : Pc → Option Pc
  | create program i => if i < opts.num_threads program then some (entry program) else none
  | _ => none

/-- A step that makes the system call. -/
def calls : Pc → Bool
  | deactivate | reactivate => opts.cooperative .benchmark
  | notify => opts.cooperative .matrix
  | _ => false

/-- The step after this one. `stop_flag` is what the loops of the benchmark read, and `released` says
whether a thread that another one has to release is. -/
def next (stop_flag released : Bool) : Pc → Pc
  | create program i => if i < opts.num_threads program then create program (i + 1) else join program
  | join program =>
    if released && (program = .matrix || stop_flag) then exit program else join program
  | exit program => exit program
  | init => deactivate
  | deactivate => spin
  | spin => if stop_flag then read_vruntime else spin
  | read_vruntime => reactivate
  | reactivate => read_fields
  | read_fields => returned .benchmark
  | transpose => barrier
  | barrier => if released then multiply else barrier
  | multiply => notify
  | notify => read_switches
  | read_switches => returned .matrix
  | returned program => returned program

/-- The program of a `main` that has not ended. -/
def runs : Pc → Option Program
  | create program _ | join program => some program
  | _ => none

/-- The thread has marked itself and not taken the mark back. -/
def marked : Pc → Bool
  | spin | read_vruntime | reactivate => opts.cooperative .benchmark
  | read_switches | returned .matrix => opts.cooperative .matrix
  | _ => false

/-- A step changes the mark exactly if it makes the call. -/
lemma marked_next (stop_flag released : Bool) (pc : Pc) :
    (pc.next opts stop_flag released).marked opts = (pc.marked opts ^^ pc.calls opts) := by
  cases pc with
  | create program i | join program | barrier | spin =>
    simp only [next]
    split <;> simp [marked, calls]
  | returned program => simp [next, calls]
  | _ => simp [next, marked, calls]

end Pc

/-- A thread of one of the programs, with the thread that runs its `main`. -/
structure Thread (τ : Type*) where
  main : τ
  pc : Pc
deriving DecidableEq

/-- The machine, the threads of the programs on it, and the flag that the signal handler sets. -/
structure System (κ τ ι : Type*) where
  smp : Smp κ τ ι
  threads : τ → Option (Thread τ)
  stop_flag : τ → Bool

/-- What can happen: an event of the machine, a signal to the process of a `main`, or a step of the program
that a processor runs. A created thread is `child`. -/
inductive ProgramEvent (κ τ ι : Type*) where
  | kernel (e : SmpEvent κ τ ι)
  | sigterm (main : τ)
  | step (cpu : ι) (released : Bool) (child : τ) (vruntime : κ)

section Functions
variable {κ τ ι : Type*} [DecidableEq τ] [DecidableEq ι] (V : Vruntime κ) (rb : Rebalance τ)
  (opts : Options)

/-- The thread `t` makes a step on a processor. -/
def thread_step (s : System κ τ ι) (cpu : ι) (t : τ) (th : Thread τ) (released : Bool) (child : τ)
    (vruntime : κ) : System κ τ ι :=
  let next : Thread τ := { th with pc := th.pc.next opts (s.stop_flag th.main) released }
  match th.pc.creates opts with
  | some entry =>
    if s.smp.created child then s
    else { s with
      smp := copy_process s.smp cpu child vruntime
      threads := update (update s.threads t (some next)) child (some { th with pc := entry }) }
  | none => { s with
      smp := if th.pc.calls opts then sched_step V rb s.smp cpu .set_inactive else s.smp
      threads := update s.threads t (some next) }

omit [DecidableEq ι] in
/-- The signal. The benchmark has a handler for it, which sets `stop_flag`; the matrix multiplication has
none and is killed, with all its threads. -/
def System.sigterm (s : System κ τ ι) (main : τ) : System κ τ ι :=
  match (s.threads main).bind (·.pc.runs) with
  | some .benchmark => { s with stop_flag := update s.stop_flag main true }
  | some .matrix => { s with threads := fun t => (s.threads t).filter (·.main ≠ main) }
  | none => s

def program_step (s : System κ τ ι) : ProgramEvent κ τ ι → System κ τ ι
  | .kernel e => { s with smp := smp_step V rb s.smp e }
  | .sigterm main => s.sigterm main
  | .step cpu released child vruntime =>
    match s.smp.curr cpu with
    | none => s
    | some t =>
      match s.threads t with
      | none => s
      | some th => thread_step V rb opts s cpu t th released child vruntime

omit [DecidableEq τ] [DecidableEq ι] in
/-- The threads of the programs make the system call and fork where the programs say so. -/
def outsider (s : System κ τ ι) : ProgramEvent κ τ ι → Prop
  | .kernel (.sched cpu e) => ∀ t, caller (s.smp.rq cpu) e = some t → s.threads t = none
  | .kernel (.fork cpu _ _) => ∀ t, s.smp.curr cpu = some t → s.threads t = none
  | _ => True

/-- The programs are about to create their threads. -/
def System.Started (s : System κ τ ι) : Prop :=
  ∀ t th, s.threads t = some th →
    s.smp.created t = true ∧ th.main = t ∧ ∃ program, th.pc = .create program 0

/-- The flag of a thread is that with which its `main` was started, and the other one while the thread is
marked. -/
structure Marked (opts : Options) (start : τ → Bool) (s : System κ τ ι) : Prop where
  created : ∀ t th, s.threads t = some th → s.smp.created t = true
  flag : ∀ t th, s.threads t = some th → s.smp.inactive t = (start th.main ^^ th.pc.marked opts)

end Functions

section Flags
variable {κ τ ι : Type*} [DecidableEq τ] [DecidableEq ι] (V : Vruntime κ) (rb : Rebalance τ)
  {opts : Options} {start : τ → Bool} {m : Smp κ τ ι} {s : System κ τ ι}

omit [DecidableEq τ] [DecidableEq ι] in
/-- The invariant, thread by thread. -/
lemma Marked.of_threads {threads : τ → Option (Thread τ)} {stop_flag : τ → Bool}
    (all : ∀ t th, threads t = some th →
      m.created t = true ∧ m.inactive t = (start th.main ^^ th.pc.marked opts)) :
    Marked opts start ⟨m, threads, stop_flag⟩ :=
  ⟨fun t th h => (all t th h).1, fun t th h => (all t th h).2⟩

omit [DecidableEq ι] in
/-- A fork leaves the tasks that there are. -/
lemma copy_process_of_created {t : τ} (created : m.created t = true) (cpu : ι) (child : τ) (v : κ) :
    (copy_process m cpu child v).created t = true ∧
      (copy_process m cpu child v).inactive t = m.inactive t := by
  rw [copy_process]
  split
  · exact ⟨created, rfl⟩
  · split
    · exact ⟨created, rfl⟩
    · rename_i fresh
      have ne : t ≠ child := by
        rintro rfl
        exact fresh created
      simp [created, ne]

/-- An event in which a task makes no call leaves its flag. -/
lemma inactive_sched_step {cpu : ι} {e : Event κ τ} {t : τ} (no : caller (m.rq cpu) e ≠ some t) :
    (sched_step V rb m cpu e).inactive t = m.inactive t := by
  simp [sched_step, inactive_cfs_step, no]

/-- An event of the machine leaves the flags of the threads. -/
lemma Marked.kernel (mk : Marked opts start s) {e : SmpEvent κ τ ι} (out : outsider s (.kernel e)) :
    Marked opts start { s with smp := smp_step V rb s.smp e } := by
  cases e with
  | sched cpu e =>
    refine ⟨mk.created, fun t th h => ?_⟩
    have no : caller (s.smp.rq cpu) e ≠ some t := by
      intro c
      rw [out t c] at h
      cases h
    exact (inactive_sched_step V rb no).trans (mk.flag t th h)
  | fork cpu child v =>
    refine ⟨fun t th h => ?_, fun t th h => ?_⟩
    · exact (copy_process_of_created (mk.created t th h) cpu child v).1
    · exact (copy_process_of_created (mk.created t th h) cpu child v).2.trans (mk.flag t th h)

omit [DecidableEq ι] in
/-- `main` creates a thread, which has its flag. -/
lemma Marked.create (mk : Marked opts start s) {cpu : ι} {t child : τ} {th : Thread τ} {entry : Pc}
    (runs : s.smp.curr cpu = some t) (h : s.threads t = some th)
    (creates : th.pc.creates opts = some entry) (fresh : s.smp.created child = false) (v : κ)
    (stop_flag released : Bool) :
    Marked opts start { s with
      smp := copy_process s.smp cpu child v
      threads := update (update s.threads t (some { th with pc := th.pc.next opts stop_flag released }))
        child (some { th with pc := entry }) } := by
  have unmarked : th.pc.marked opts = false ∧ (th.pc.next opts stop_flag released).marked opts = false ∧
      entry.marked opts = false := by
    cases pc : th.pc with
    | create program i =>
      rw [pc, Pc.creates] at creates
      split at creates
      · obtain rfl := Option.some.inj creates
        refine ⟨rfl, ?_, by cases program <;> rfl⟩
        rw [Pc.next]
        split <;> rfl
      · cases creates
    | _ => simp [pc, Pc.creates] at creates
  obtain ⟨was, next, enters⟩ := unmarked
  have parent := mk.flag t th h
  have here := mk.created t th h
  have ne : t ≠ child := by
    rintro rfl
    simp [here] at fresh
  have copy : (copy_process s.smp cpu child v).created child = true ∧
      (copy_process s.smp cpu child v).inactive child = s.smp.inactive t := by
    simp [copy_process, runs, fresh]
  have kept := fun x created => copy_process_of_created (m := s.smp) (t := x) created cpu child v
  refine .of_threads fun x th' hx => ?_
  by_cases new : x = child
  · subst new
    rw [update_self] at hx
    obtain rfl := Option.some.inj hx
    refine ⟨copy.1, ?_⟩
    rw [copy.2, parent, was, enters]
  · rw [update_of_ne new] at hx
    by_cases self : x = t
    · subst self
      rw [update_self] at hx
      obtain rfl := Option.some.inj hx
      refine ⟨(kept x here).1, ?_⟩
      rw [(kept x here).2, parent, was, next]
    · rw [update_of_ne self] at hx
      have created := mk.created x th' hx
      exact ⟨(kept x created).1, (kept x created).2.trans (mk.flag x th' hx)⟩

/-- A thread makes a step, and the call that it makes there. -/
lemma Marked.advance (mk : Marked opts start s) {cpu : ι} {t : τ} {th : Thread τ}
    (runs : s.smp.curr cpu = some t) (h : s.threads t = some th) (stop_flag released : Bool) :
    Marked opts start { s with
      smp := if th.pc.calls opts then sched_step V rb s.smp cpu .set_inactive else s.smp
      threads := update s.threads t (some { th with pc := th.pc.next opts stop_flag released }) } := by
  have created : ∀ x, (if th.pc.calls opts then sched_step V rb s.smp cpu .set_inactive else s.smp).created x =
      s.smp.created x := by
    intro x
    split <;> rfl
  have flag : ∀ x, (if th.pc.calls opts then sched_step V rb s.smp cpu .set_inactive else s.smp).inactive x =
      if x = t then s.smp.inactive t ^^ th.pc.calls opts else s.smp.inactive x := by
    intro x
    have caller_eq : caller (s.smp.rq cpu) (.set_inactive : Event κ τ) = some t := runs
    by_cases e : x = t
    · subst e
      cases th.pc.calls opts <;> simp [sched_step, inactive_cfs_step, caller_eq]
    · have no : caller (s.smp.rq cpu) (.set_inactive : Event κ τ) ≠ some x := by
        rw [caller_eq]
        exact fun c => e (Option.some.inj c).symm
      rw [if_neg e]
      split
      · exact inactive_sched_step V rb no
      · rfl
  refine .of_threads fun x th' hx => ?_
  rw [created, flag]
  by_cases e : x = t
  · subst e
    rw [update_self] at hx
    obtain rfl := Option.some.inj hx
    rw [if_pos rfl, mk.flag x th h, Pc.marked_next, Bool.xor_assoc]
    exact ⟨mk.created x th h, rfl⟩
  · rw [update_of_ne e] at hx
    rw [if_neg e]
    exact ⟨mk.created x th' hx, mk.flag x th' hx⟩

omit [DecidableEq ι] in
/-- A signal leaves the tasks as they are, and no thread is new. -/
lemma Marked.sigterm (mk : Marked opts start s) (main : τ) : Marked opts start (s.sigterm main) := by
  rw [System.sigterm]
  split
  · exact ⟨mk.created, mk.flag⟩
  · refine .of_threads fun t th h => ?_
    have old := (Option.filter_eq_some_iff.mp h).1
    exact ⟨mk.created t th old, mk.flag t th old⟩
  · exact mk

/-- Every step keeps the invariant. -/
lemma marked_step (mk : Marked opts start s) {e : ProgramEvent κ τ ι} (out : outsider s e) :
    Marked opts start (program_step V rb opts s e) := by
  cases e with
  | kernel e => exact mk.kernel V rb out
  | sigterm main => exact mk.sigterm main
  | step cpu released child v =>
    rw [program_step]
    split
    · exact mk
    · rename_i t runs
      split
      · exact mk
      · rename_i th h
        rw [thread_step]
        split
        · rename_i entry creates
          split
          · exact mk
          · rename_i fresh
            exact mk.create runs h creates (by simpa using fresh) v _ _
        · exact mk.advance V rb runs h _ _

omit [DecidableEq τ] [DecidableEq ι] in
/-- At the start no thread is marked. -/
lemma System.Started.marked (started : s.Started) : Marked opts s.smp.inactive s := by
  refine ⟨fun t th h => (started t th h).1, fun t th h => ?_⟩
  obtain ⟨_, rfl, program, pc⟩ := started t th h
  simp [pc, Pc.marked]

/-- The time of the running task when it is put back. -/
lemma vruntime_put_prev_entity_self {rq : CfsRq κ τ} {t : τ} (runs : rq.curr = some t) (d : ℕ) :
    (put_prev_entity V rb rq d).vruntime t =
      if rq.inactive t then V.add (V.add (rq.vruntime t) d) INACTIVE_PENALTY_NS
      else V.add (rq.vruntime t) d := by
  rw [put_prev_entity_some V rb rq d runs]
  cases flag : rq.inactive t <;> simp [__enqueue_entity, inflate, update_curr_some V rq d runs, flag]

/-- In every run of the programs among other tasks, a thread that is preempted is penalised exactly while it
is marked, if the `main` of its program was started active, and exactly while it is not if that was started
inactive. -/
theorem penalised_iff (started : s.Started) {h : List (ProgramEvent κ τ ι)}
    (adm : Always (program_step V rb opts) outsider s h) {t : τ} {th : Thread τ} {cpu : ι} :
    let s' := run (program_step V rb opts) s h
    s'.threads t = some th → s'.smp.curr cpu = some t → ∀ d,
      (put_prev_entity V rb (s'.smp.rq cpu) d).vruntime t =
        if s.smp.inactive th.main ^^ th.pc.marked opts then
          V.add (V.add (s'.smp.vruntime t) d) INACTIVE_PENALTY_NS
        else V.add (s'.smp.vruntime t) d := by
  intro s' thread runs d
  have mk : Marked opts s.smp.inactive s' :=
    run_invariant_of_always (I := Marked opts s.smp.inactive)
      (fun _ _ out mk => marked_step V rb mk out) started.marked adm
  have runs' : (s'.smp.rq cpu).curr = some t := runs
  rw [vruntime_put_prev_entity_self V rb runs' d, inactive_rq, mk.flag t th thread]
  rfl

/-- The benchmark is about to create its only thread. -/
def lone_benchmark : System ℤ ℕ ℕ where
  smp := lone_task
  threads := fun t => if t = 0 then some ⟨0, .create .benchmark 0⟩ else none
  stop_flag := fun _ => false

/-- The thread of the benchmark is preempted while it spins, and penalised. -/
theorem penalised_iff_lone_benchmark :
    let opts : Options := ⟨fun _ => true, fun _ => 1⟩
    let h := [.step 0 true 1 0, .kernel (.sched 1 (.arrive 1 0)), .kernel (.sched 1 .pick),
      .step 1 true 0 0, .step 1 true 0 0]
    let s := run (program_step .unbounded .plain opts) lone_benchmark h
    (put_prev_entity .unbounded .plain (s.smp.rq 1) 5).vruntime 1 = 0 + 5 + INACTIVE_PENALTY_NS := by
  intro opts h s
  have started : lone_benchmark.Started := by
    intro t th e
    by_cases zero : t = 0
    · subst zero
      obtain rfl := Option.some.inj e
      exact ⟨rfl, rfl, .benchmark, rfl⟩
    · simp [lone_benchmark, zero] at e
  have adm : Always (program_step .unbounded .plain opts) outsider lone_benchmark h :=
    ⟨trivial, fun _ => nofun, fun _ => nofun, trivial, trivial, trivial⟩
  have spins : s.threads 1 = some ⟨0, .spin⟩ := rfl
  exact penalised_iff .unbounded .plain started adm spins rfl 5

end Flags

end CS519.Sched
