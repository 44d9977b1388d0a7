import CS519.Atomic
import CS519.Extents.Mm

/-!
# Threads at one table

The threads of a process fault pages in and unmap them at the same time, and all of them update the one table
of their address space. Every entry point takes the lock of the table for all it does, so it does not matter
into which accesses the compiler splits it, nor how these are interleaved: the table is a linearizable set of
page frames (`table_linearizable`).

What the callers have to keep to is what the page allocator makes sure of: whoever faults a page in has a
frame that is not tracked and that nobody else is faulting in (`Allocated`).
-/

namespace CS519.Extents
variable {ι π : Type} [DecidableEq ι] (rb : Rebalance ExtentNode)

/-- A call of an entry point, with its return code. -/
def World.call (op : Op) (w : World) : World × ℤ :=
  match op with
  | .insert p =>
    let r := extent_rb_insert_or_add rb w.pt p w.m
    (⟨r.1.2, r.2⟩, r.1.1)
  | .remove p =>
    let r := extent_rb_remove_page rb w.pt p w.m
    (⟨r.1.2, r.2⟩, r.1.1)

/-- A call leaves the state that its step leaves. -/
@[simp] lemma World.call_fst (op : Op) (w : World) : (w.call rb op).1 = w.step rb op := by
  cases op <;> rfl

/-- The return code that a set of page frames gives. -/
def Op.ret (s : Finset ulong) : Op → ℤ
  | .insert _ => 0
  | .remove p => if p ∈ s then 0 else -EINVAL

/-- An admitted call returns what it should. -/
lemma Refines.ret {w : World} {s : Finset ulong} {op : Op} (admitted : op.untracked s ∧ op.nowrap s)
    (ref : Refines w s) : (w.call rb op).2 = op.ret s := by
  cases op with
  | insert p =>
    obtain ⟨root, calls, run, _⟩ := ref.inserted rb admitted.1 admitted.2
    simp only [World.call, run, Op.ret]
  | remove p =>
    by_cases hp : p ∈ s
    · obtain ⟨root, calls, run, _⟩ := ref.removed rb hp
      simp only [World.call, run, Op.ret, if_pos hp]
    · simp only [World.call, remove_absent rb w.m (mt (ref.mem p).mp hp), Op.ret, if_neg hp]

/-- The tracked frames after a call that has returned. -/
def track_returned (s : Finset ulong) (e : Returned ι Op ℤ) : Finset ulong := track s e.call

/-- The call has returned what it should. -/
def right_code (s : Finset ulong) (e : Returned ι Op ℤ) : Prop := e.res = e.call.ret s

section Serial
variable {rb}

omit [DecidableEq ι] in
/-- Calls that return what they return one after the other do what they should to the set, if they are
admitted. -/
lemma Refines.serial {es : List (Returned ι Op ℤ)} : ∀ {w : World} {s : Finset ulong}, Refines w s →
    Always track_returned (fun s e => e.call.untracked s ∧ e.call.nowrap s) s es →
    Always (serial_step (World.call rb)) (answers (World.call rb)) w es →
      Always track_returned right_code s es ∧
        Refines (run (serial_step (World.call rb)) w es) (run track_returned s es) := by
  induction es with
  | nil => exact fun {w s} ref _ _ => ⟨trivial, ref⟩
  | cons e es ih =>
    intro w s ref admitted right
    have next : Refines (serial_step (World.call rb) w e) (track_returned s e) := by
      rw [serial_step, World.call_fst]
      exact step_refines rb admitted.1 ref
    obtain ⟨codes, refines⟩ := ih next admitted.2 right.2
    exact ⟨⟨right.1.symm.trans (ref.ret rb admitted.1), codes⟩, refines⟩

end Serial

/-! ## Frames in flight -/

section Flight
variable {P : Proc Op π ℤ World}

/-- The threads beside the frames that the calls so far have led to. -/
def watch (P : Proc Op π ℤ World) (x : Locked ι Op π ℤ World × Finset ulong) (i : ι × Op) :
    Locked ι Op π ℤ World × Finset ulong :=
  (x.1.step P i, run track_returned x.2 (x.1.returns i).toList)

/-- The frame of an insertion is not tracked, and nobody else inserts it. -/
def Op.fresh (x : Locked ι Op π ℤ World × Finset ulong) : Op → Prop
  | .insert p => is_pfn p ∧ p ∉ x.2 ∧ ∀ u, (x.1.threads u).call ≠ some (.insert p)
  | .remove _ => True

/-- A thread that makes a call has got a fresh frame for it. -/
def Allocated (x : Locked ι Op π ℤ World × Finset ulong) (i : ι × Op) : Prop :=
  (x.1.threads i.1).call = none → i.2.fresh x

section
variable [Fintype ι]

instance (x : Locked ι Op π ℤ World × Finset ulong) : ∀ op, Decidable (Op.fresh x op)
  | .insert p =>
    inferInstanceAs (Decidable (is_pfn p ∧ p ∉ x.2 ∧ ∀ u, (x.1.threads u).call ≠ some (.insert p)))
  | .remove _ => inferInstanceAs (Decidable True)

instance (x : Locked ι Op π ℤ World × Finset ulong) (i : ι × Op) : Decidable (Allocated x i) :=
  inferInstanceAs (Decidable (_ → _))

end

/-- The frames that are being inserted are not tracked, and no two threads insert the same. -/
def InFlight (x : Locked ι Op π ℤ World × Finset ulong) : Prop :=
  ∀ u p, (x.1.threads u).call = some (.insert p) →
    is_pfn p ∧ p ∉ x.2 ∧ ∀ v, (x.1.threads v).call = some (.insert p) → v = u

/-- The calls that return in one step are admitted, and the frames in flight stay apart. -/
lemma InFlight.step {x : Locked ι Op π ℤ World × Finset ulong} {i : ι × Op} (flight : InFlight x)
    (alloc : Allocated x i) :
    InFlight (watch P x i) ∧ ∀ e ∈ x.1.returns i, e.call.untracked x.2 ∧ e.call.nowrap x.2 := by
  have others : ∀ {u}, u ≠ i.1 → ((x.1.step P i).threads u).call = (x.1.threads u).call :=
    fun ne => congrArg At.call (threads_step_of_ne ne)
  cases c : (x.1.threads i.1).call with
  | none =>
    -- the thread makes a call
    obtain ⟨none, own⟩ := call_step_of_none (P := P) c
    refine ⟨fun u p call => ?_, by simp [none]⟩
    simp only [watch, none, Option.toList_none, run_nil] at call ⊢
    by_cases same : u = i.1
    · subst same
      rw [own] at call
      have own_call : i.2 = .insert p := Option.some.inj call
      have fresh := alloc c
      rw [own_call] at fresh
      obtain ⟨frame, np, nobody⟩ := fresh
      refine ⟨frame, np, fun v hv => ?_⟩
      by_contra ne
      rw [others ne] at hv
      exact nobody v hv
    · rw [others same] at call
      obtain ⟨frame, np, only⟩ := flight u p call
      refine ⟨frame, np, fun v hv => ?_⟩
      by_cases same' : v = i.1
      · subst same'
        rw [own] at hv
        have own_call : i.2 = .insert p := Option.some.inj hv
        have fresh := alloc c
        rw [own_call] at fresh
        exact absurd call (fresh.2.2 u)
      · rw [others same'] at hv
        exact only v hv
  | some k =>
    rcases call_step_of_some (P := P) c with ⟨none, own⟩ | ⟨r, returns, own⟩
    · have calls : ∀ u, ((x.1.step P i).threads u).call = (x.1.threads u).call := by
        intro u
        by_cases same : u = i.1
        · subst same
          exact own.trans c.symm
        · exact others same
      refine ⟨fun u p call => ?_, by simp [none]⟩
      simp only [watch, none, Option.toList_none, run_nil, calls] at call ⊢
      exact flight u p call
    · -- the call returns
      refine ⟨fun u p call => ?_, fun e mem => ?_⟩
      · have ne : u ≠ i.1 := by
          rintro rfl
          simp [watch, own] at call
        simp only [watch, returns, Option.toList_some, run_cons, run_nil] at call ⊢
        rw [others ne] at call
        obtain ⟨frame, np, only⟩ := flight u p call
        refine ⟨frame, ?_, fun v hv => ?_⟩
        · cases k with
          | insert q =>
            have other : p ≠ q := by
              rintro rfl
              exact ne (only i.1 c).symm
            simpa [track_returned, track, other] using np
          | remove q => exact fun mem => np (Finset.mem_of_mem_erase mem)
        · have ne' : v ≠ i.1 := by
            rintro rfl
            simp [own] at hv
          rw [others ne'] at hv
          exact only v hv
      · obtain rfl : ⟨i.1, k, r⟩ = e := by simpa [returns] using mem
        cases k with
        | insert q => exact admitted_of_fresh (flight i.1 q c).1 (flight i.1 q c).2.1
        | remove q => exact ⟨trivial, trivial⟩

/-- The calls that return are admitted. -/
lemma admitted_of_allocated {w : World} {h : List (ι × Op)}
    (alloc : Always (watch P) Allocated (Locked.start w, ∅) h) :
    Always track_returned (fun s e => e.call.untracked s ∧ e.call.nowrap s) ∅ (returned P w h) := by
  have key : ∀ (h : List (ι × Op)) (x : Locked ι Op π ℤ World × Finset ulong), InFlight x →
      Always (watch P) Allocated x h →
      Always track_returned (fun s e => e.call.untracked s ∧ e.call.nowrap s) x.2
        (trace (Locked.step P) Locked.returns x.1 h) := by
    intro h
    induction h with
    | nil => exact fun _ _ _ => trivial
    | cons i h ih =>
      intro x flight alloc
      obtain ⟨flight', admitted⟩ := flight.step alloc.1
      rw [trace, always_append]
      refine ⟨?_, ih _ flight' alloc.2⟩
      cases e : x.1.returns i with
      | none => trivial
      | some e' => exact ⟨admitted e' (by rw [e]; rfl), trivial⟩
  refine key h _ (fun u p call => ?_) alloc
  cases call

end Flight

/-- The table is a linearizable set of page frames. The entry points are split into steps in any way, and the
threads make their steps in any order: the calls return what a set of frames gives them in the order in which
they return, and whenever the lock is free the table holds these frames, in extents as large as they can be. -/
theorem table_linearizable (P : Proc Op π ℤ World) (splits : P.Splits (World.call rb)) (h : List (ι × Op))
    (alloc : Always (watch P) Allocated (Locked.start (World.start fun _ => true), ∅) h) :
    let s := run (Locked.step P) (Locked.start (World.start fun _ => true)) h
    let es := returned P (World.start fun _ => true) h
    Always track_returned right_code ∅ es ∧
      (s.held = false → Refines s.shared (run track_returned ∅ es)) := by
  intro s es
  have ser := serialised (ι := ι) splits (World.start fun _ => true) h
  obtain ⟨codes, refines⟩ := Refines.start.serial (admitted_of_allocated alloc) ser.answers
  refine ⟨codes, fun free => ?_⟩
  rcases ser.midway with ⟨_, same, _⟩ | ⟨_, held, _⟩
  · rw [show s.shared = _ from same]
    exact refines
  · exact absurd (free.symm.trans held) (by decide)

/-! ## The search and the update -/

/-- Where a call is: before its search, or between its search and its update. -/
inductive EntryPlace where
  | search (op : Op)
  | insert (p : ulong) (adj : List ExtentNode)
  | remove (p : ulong) (old_en : Option ExtentNode)

/-- The entry points in two steps. -/
def entry_points : Proc Op EntryPlace ℤ World where
  start := .search
  tick
    | .search (.insert p), w => (w, .inl (.insert p (extent_rb_find_all_adjacent w.pt.root p)))
    | .search (.remove p), w => (w, .inl (.remove p (extent_rb_find_containing w.pt.root p)))
    | .insert p adj, w =>
      let r := with_lock (insert_beside rb w.pt p adj) w.m
      (⟨r.1.2, r.2⟩, .inr r.1.1)
    | .remove p old_en, w =>
      let r := with_lock (remove_from rb w.pt p old_en) w.m
      (⟨r.1.2, r.2⟩, .inr r.1.1)

/-- The entry points take the lock, make their calls and give the lock back. -/
lemma entry_points_split : (entry_points rb).Splits (World.call rb) := by
  intro op w
  cases op with
  | insert p => exact .more rfl (.last rfl)
  | remove p => exact .more rfl (.last rfl)

/-- Two threads fault in neighbouring pages and wait for each other. -/
theorem table_linearizable_two :
    let h : List (Fin 2 × Op) := [(0, .insert 5), (1, .insert 6), (1, .remove 5), (0, .insert 7), (1, .remove 5),
      (0, .insert 7), (1, .remove 5), (1, .remove 5), (0, .insert 7), (0, .insert 7), (0, .insert 7),
      (0, .insert 7)]
    pages (run (Locked.step (entry_points .plain)) (Locked.start (World.start fun _ => true)) h).shared.nodes =
      ({5, 6} : Finset ulong) := by
  intro h
  have lin := table_linearizable (ι := Fin 2) .plain (entry_points .plain) (entry_points_split .plain) h
    (by decide)
  exact (lin.2 (by decide)).pages.trans (congrArg _ (by decide))

end CS519.Extents
