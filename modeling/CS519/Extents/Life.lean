import CS519.Fair
import CS519.Extents.Ledger
import CS519.Extents.Mm
import CS519.Extents.Report

/-!
# The life of a table

An address space gets a table when it is created (`mm_init`), starts to use it when one of its threads makes
the system call `use_extents`, fills it in page faults, empties it in unmaps, and gives it back at its end
(`exit_mmap`). `life_spec` is what this amounts to: an address space watches nothing, or it watches the
frames that have been faulted in for it since it opted in and not unmapped since. Frames it had before, those
it shares with a parent and those it has got in another way are not among them.

The hooks take the table of `current->mm`, whose page it may not be. Where no table is concerned that is not
the page's own (`life_admits`), the tables refine what is watched in every run (`life_refines`), and no
extent and no tree node outlives its table (`life_ledger`).
-/

namespace CS519.Extents
open CInt (INT_MAX)
open Function
variable {μ : Type} [DecidableEq μ] (rb : Rebalance ExtentNode)

namespace Mms
variable (k : Mms μ)

/-- The hook in `mm_init`. It does not set the flag: that is what the memory of the new `mm_struct` holds,
which `dup_mm` has copied from the parent and `mm_alloc` has cleared. -/
def mm_init (mm : μ) (use_extents : Bool) : Mms μ :=
  { k with extent_pt := update k.extent_pt mm .empty, use_extents := update k.use_extents mm use_extents }

/-- The system call, and what it logs. -/
def sys_use_extents (cur : μ) (pid flag : int) : Mms μ × List Line :=
  if flag = 0 then ({ k with use_extents := update k.use_extents cur true }, [])
  else if flag = 1 ∧ k.use_extents cur then
    let (lines, m) := extent_rb_print pid (k.extent_pt cur) k.m
    ({ k with m }, lines)
  else (k, [])

/-- The hook in `exit_mmap`. The loop of the teardown runs once for each node. -/
def exit_mmap (mm : μ) : Mms μ :=
  if k.use_extents mm then
    match extent_rb_destroy rb (k.world mm).nodes.length (k.extent_pt mm) k.m with
    | (some (root, _), m) => { k with extent_pt := update k.extent_pt mm ⟨root⟩, m }
    | (none, m) => { k with m }
  else k

end Mms

/-- What happens to the address spaces. A page of `mm` is faulted in or unmapped while `current->mm` is
`cur`. -/
inductive LifeEvent (μ : Type) where
  | mm_init (mm : μ) (use_extents : Bool)
  | use_extents (cur : μ) (pid flag : int)
  | fault (cur mm : μ) (pfn : ulong)
  | zap (cur : Option μ) (mm : μ) (pfn : ulong)
  | exit_mmap (mm : μ)

def life_step (k : Mms μ) : LifeEvent μ → Mms μ
  | .mm_init mm use_extents => k.mm_init mm use_extents
  | .use_extents cur pid flag => (k.sys_use_extents cur pid flag).1
  | .fault cur _ pfn => k.do_anonymous_page rb (some cur) pfn
  | .zap cur _ pfn => k.zap_pte_range rb cur pfn
  | .exit_mmap mm => k.exit_mmap rb mm

/-- The frames that each address space watches, if it has opted in: its own, whoever handles the event. -/
def life_spec (w : μ → Option (Finset ulong)) : LifeEvent μ → μ → Option (Finset ulong)
  | .mm_init mm use_extents => update w mm (if use_extents then some ∅ else none)
  | .use_extents cur _ flag => if flag = 0 then update w cur (some ((w cur).getD ∅)) else w
  | .fault _ mm pfn => update w mm ((w mm).map (insert pfn))
  | .zap _ mm pfn => update w mm ((w mm).map (Finset.erase · pfn))
  | .exit_mmap mm => update w mm ((w mm).map fun _ => ∅)

/-- A fault brings a frame that its address space does not watch yet, and an `mm_struct` is initialised when
nobody uses it. A page is faulted in by its own address space, or neither has opted in. It is unmapped by its
own address space, or neither watches it. -/
def life_admits (w : μ → Option (Finset ulong)) : LifeEvent μ → Prop
  | .mm_init mm _ => (w mm).getD ∅ = ∅
  | .fault cur mm pfn =>
    (is_pfn pfn ∧ pfn ∉ (w mm).getD ∅) ∧ (cur = mm ∨ w cur = none ∧ w mm = none)
  | .zap cur mm pfn => cur = some mm ∨ pfn ∉ (w mm).getD ∅ ∧ ∀ c ∈ cur, pfn ∉ (w c).getD ∅
  | _ => True

instance (w : μ → Option (Finset ulong)) : ∀ e, Decidable (life_admits w e)
  | .mm_init mm _ => inferInstanceAs (Decidable ((w mm).getD ∅ = ∅))
  | .use_extents _ _ _ => inferInstanceAs (Decidable True)
  | .fault cur mm pfn => inferInstanceAs
      (Decidable ((is_pfn pfn ∧ pfn ∉ (w mm).getD ∅) ∧ (cur = mm ∨ w cur = none ∧ w mm = none)))
  | .zap cur mm pfn => inferInstanceAs
      (Decidable (cur = some mm ∨ pfn ∉ (w mm).getD ∅ ∧ ∀ c ∈ cur, pfn ∉ (w c).getD ∅))
  | .exit_mmap _ => inferInstanceAs (Decidable True)

/-- The flags say who watches, and the tables refine what they watch. -/
structure Lives (k : Mms μ) (w : μ → Option (Finset ulong)) : Prop where
  flag : ∀ mm, k.use_extents mm = (w mm).isSome
  refines : ∀ mm, Refines (k.world mm) ((w mm).getD ∅)

section Lives
variable {rb} {k : Mms μ} {w : μ → Option (Finset ulong)} {mm : μ}

omit [DecidableEq μ] in
/-- At the start nobody watches anything. -/
lemma Lives.boot : Lives (Mms.start fun _ : μ => false) fun _ => none where
  flag _ := rfl
  refines _ := Refines.start

/-- An empty table tracks nothing. -/
lemma Refines.empty {v : World} {s : Finset ulong} (ref : Refines v s) (calls : List Event) :
    Refines ⟨⟨.nil⟩, v.m.after calls⟩ ∅ where
  wf := .nil
  pages := by simp [World.nodes]
  fresh := by simp [World.nodes]
  succeeds := ref.succeeds

/-- A table that tracks nothing has no nodes. -/
lemma Refines.nodes_eq_nil {v : World} (ref : Refines v ∅) : v.nodes = [] := by
  refine List.eq_nil_iff_forall_not_mem.mpr fun en mem => ?_
  have first : en.ex.starting_phys_addr ∈ Extents.pages v.nodes :=
    ⟨en, mem, contains_iff.mpr ⟨le_rfl, ref.wf.canonical.proper en mem⟩⟩
  exact Finset.notMem_empty _ ((ref.mem _).mp first)

/-- One table and the machine change. -/
lemma Lives.table (lives : Lives k w) {pt : ExtentPagetable} {s : Finset ulong} {calls : List Event}
    (own : Refines ⟨pt, k.m.after calls⟩ s) (watched : (w mm).isSome ∨ s = ∅) :
    Lives { k with extent_pt := update k.extent_pt mm pt, m := k.m.after calls }
      (update w mm ((w mm).map fun _ => s)) where
  flag mm' := by
    by_cases same : mm' = mm
    · subst same
      simp [lives.flag]
    · simp [update_of_ne same, lives.flag]
  refines mm' := by
    by_cases same : mm' = mm
    · subst same
      have getD : ((w mm').map fun _ => s).getD ∅ = s := by
        cases e : w mm' with
        | none => exact (watched.resolve_left (by simp [e])).symm
        | some _ => rfl
      simpa [Mms.world, getD] using own
    · have frame := (lives.refines mm').frame calls
      simpa [Mms.world, update_of_ne same] using frame

/-- An entry point is called on the table of an address space that watches. -/
lemma Lives.call (lives : Lives k w) {s : Finset ulong} (watches : w mm = some s) {op : Op}
    (admitted : op.untracked s ∧ op.nowrap s) :
    Lives (k.call rb mm op) (update w mm ((w mm).map (track · op))) := by
  have ref : Refines (k.world mm) s := by
    have := lives.refines mm
    rwa [watches] at this
  obtain ⟨calls, machine⟩ := ref.step_machine rb admitted
  have own := step_refines rb admitted ref
  have call : k.call rb mm op =
      { k with extent_pt := update k.extent_pt mm ((k.world mm).step rb op).pt, m := k.m.after calls } := by
    rw [Mms.call]
    congr 1
  have same : (w mm).map (track · op) = (w mm).map fun _ => track s op := by rw [watches]; rfl
  rw [call, same]
  refine lives.table ?_ (.inl (by rw [watches]; rfl))
  rwa [← show ((k.world mm).step rb op).m = k.m.after calls from machine]

/-- The teardown leaves an empty table. -/
lemma exit_mmap_eq (k : Mms μ) (used : k.use_extents mm = true) : k.exit_mmap rb mm =
    { k with
      extent_pt := update k.extent_pt mm ⟨.nil⟩
      m := k.m.after (locked (teardown (k.world mm).nodes)) } := by
  have destroyed := extent_rb_destroy_eq rb (w := k.world mm) le_rfl
  simp only [Mms.world] at destroyed
  simp only [Mms.exit_mmap, used, if_true, Mms.world, destroyed]

/-- The report takes the lock and gives it back. -/
lemma print_machine (pid : int) (pt : ExtentPagetable) (m : Machine) :
    (extent_rb_print pid pt m).2 = m.after (locked []) := by
  simp [extent_rb_print, with_lock, locked]

/-- What is printed changes nothing. -/
lemma sys_use_extents_one (k : Mms μ) (cur : μ) (pid : int) {flag : int} (ne : flag ≠ 0) :
    ∃ calls, (allocs calls = 0 ∧ frees calls = 0) ∧
      (k.sys_use_extents cur pid flag).1 = { k with m := k.m.after calls } := by
  rw [Mms.sys_use_extents, if_neg ne]
  split
  · refine ⟨locked [], by simp, ?_⟩
    rw [← print_machine pid (k.extent_pt cur)]
    rfl
  · exact ⟨[], by simp, by simp⟩

omit [DecidableEq μ] in
/-- An address space watches nothing exactly if its flag is not set. -/
lemma Lives.unused_iff (lives : Lives k w) : k.use_extents mm = false ↔ w mm = none := by
  rw [lives.flag, Option.isSome_eq_false_iff, Option.isNone_iff_eq_none]

omit [DecidableEq μ] in
/-- An address space whose flag is set watches some frames. -/
lemma Lives.used (lives : Lives k w) {s : Finset ulong} (watches : w mm = some s) :
    k.use_extents mm = true := by
  rw [lives.flag, watches]
  rfl

/-- To stop watching a frame that is not watched changes nothing. -/
lemma erase_unwatched {pfn : ulong} (absent : pfn ∉ (w mm).getD ∅) :
    update w mm ((w mm).map (Finset.erase · pfn)) = w := by
  cases watches : w mm with
  | none => rw [Option.map_none, ← watches, update_eq_self]
  | some s =>
    rw [watches, Option.getD_some] at absent
    rw [Option.map_some, Finset.erase_eq_of_notMem absent, ← watches, update_eq_self]

/-- The hook of the page fault inserts the frame into the table of `current->mm`, if that has opted in. -/
lemma Lives.do_anonymous_page (lives : Lives k w) {pfn : ulong} (frame : is_pfn pfn)
    (fresh : pfn ∉ (w mm).getD ∅) :
    Lives (k.do_anonymous_page rb (some mm) pfn) (update w mm ((w mm).map (insert pfn))) := by
  cases watches : w mm with
  | none =>
    simp only [Mms.do_anonymous_page, lives.unused_iff.mpr watches, Option.map_none]
    rw [← watches, update_eq_self]
    exact lives
  | some s =>
    rw [watches, Option.getD_some] at fresh
    have called : Lives (k.call rb mm (.insert pfn)) _ := lives.call watches (admitted_of_fresh frame fresh)
    rw [watches] at called
    simp only [Mms.do_anonymous_page, lives.used watches, if_true]
    exact called

/-- The hook of the unmap drops the frame from the table of `current->mm`, if that has opted in. -/
lemma Lives.zap_pte_range (lives : Lives k w) (pfn : ulong) :
    Lives (k.zap_pte_range rb (some mm) pfn) (update w mm ((w mm).map (Finset.erase · pfn))) := by
  cases watches : w mm with
  | none =>
    simp only [Mms.zap_pte_range, lives.unused_iff.mpr watches, Option.map_none]
    rw [← watches, update_eq_self]
    exact lives
  | some s =>
    have called : Lives (k.call rb mm (.remove pfn)) _ := lives.call watches ⟨trivial, trivial⟩
    rw [watches] at called
    simp only [Mms.zap_pte_range, lives.used watches, if_true]
    exact called

/-- Whatever happens, the tables go on refining what is watched. -/
lemma Lives.step (lives : Lives k w) {e : LifeEvent μ} (admitted : life_admits w e) :
    Lives (life_step rb k e) (life_spec w e) := by
  cases e with
  | mm_init mm use_extents =>
    refine ⟨fun mm' => ?_, fun mm' => ?_⟩
    · by_cases same : mm' = mm
      · subst same
        cases use_extents <;> simp [life_step, life_spec, Mms.mm_init]
      · simp [life_step, life_spec, Mms.mm_init, update_of_ne same, lives.flag]
    · by_cases same : mm' = mm
      · subst same
        have none : (if use_extents then some (∅ : Finset ulong) else .none).getD ∅ = ∅ := by
          cases use_extents <;> rfl
        have empty : Refines ⟨.empty, k.m.after []⟩ ∅ := (lives.refines mm').empty []
        simpa [life_step, life_spec, Mms.mm_init, Mms.world, none] using empty
      · have kept := lives.refines mm'
        simpa [life_step, life_spec, Mms.mm_init, Mms.world, update_of_ne same] using kept
  | use_extents cur pid flag =>
    by_cases zero : flag = 0
    · subst zero
      simp only [life_step, life_spec, Mms.sys_use_extents, if_true]
      refine ⟨fun mm' => ?_, fun mm' => ?_⟩
      · by_cases same : mm' = cur
        · subst same
          simp
        · simp [update_of_ne same, lives.flag]
      · have kept := lives.refines mm'
        by_cases same : mm' = cur
        · subst same
          simpa [Mms.world] using kept
        · simpa [Mms.world, update_of_ne same] using kept
    · obtain ⟨calls, _, printed⟩ := sys_use_extents_one k cur pid zero
      simp only [life_step, life_spec, if_neg zero, printed]
      exact ⟨lives.flag, fun mm' => (lives.refines mm').frame calls⟩
  | fault cur mm pfn =>
    obtain ⟨⟨frame, fresh⟩, own⟩ := admitted
    rcases own with rfl | ⟨none, none'⟩
    · exact lives.do_anonymous_page frame fresh
    · -- neither the table that the hook would take nor the right one is in use
      simp only [life_step, life_spec, Mms.do_anonymous_page, lives.unused_iff.mpr none, none', Option.map_none]
      rw [← none', update_eq_self]
      exact lives
  | zap cur mm pfn =>
    rcases admitted with rfl | ⟨absent, others⟩
    · exact lives.zap_pte_range pfn
    · rw [life_spec, erase_unwatched absent]
      cases cur with
      | none => exact lives
      | some c =>
        have zapped : Lives (k.zap_pte_range rb (some c) pfn) _ := lives.zap_pte_range pfn
        rwa [erase_unwatched (others c rfl)] at zapped
  | exit_mmap mm =>
    cases watches : w mm with
    | none =>
      simp only [life_step, life_spec, Mms.exit_mmap, lives.unused_iff.mpr watches, watches, Option.map_none]
      rw [← watches, update_eq_self]
      exact lives
    | some s =>
      simp only [life_step, life_spec, exit_mmap_eq k (lives.used watches)]
      exact lives.table ((lives.refines mm).empty _) (.inr rfl)

/-- The tables refine what is watched after every run. -/
lemma lives_after {h : List (LifeEvent μ)} (admitted : Always life_spec life_admits (fun _ => none) h) :
    Lives (run (life_step rb) (Mms.start fun _ => false) h) (run life_spec (fun _ => none) h) :=
  run_refines (P := life_admits) (R := Lives) (fun _ _ e adm lives => lives.step (e := e) adm) .boot admitted

end Lives

/-- The report of an address space that watches is that of the frames it watches, and its lines are their
maximal runs. -/
lemma Lives.report {k : Mms μ} {w : μ → Option (Finset ulong)} (lives : Lives k w) {cur : μ}
    {s : Finset ulong} (watches : w cur = some s) (pid : int) :
    ReportExact (k.sys_use_extents cur pid 1).2 s ↔ s.card ≤ INT_MAX := by
  have used := lives.used watches
  have ref : Refines (k.world cur) s := by
    have := lives.refines cur
    rwa [watches] at this
  obtain ⟨lines, run⟩ := Wf.printed ref.wf ref.pages pid k.m
  have printed : (k.sys_use_extents cur pid 1).2 =
      lines ++ [.summary pid (.ofNat 32 (number_of_runs s)) (.ofInt 32 s.card)] := by
    rw [← run, Mms.sys_use_extents, if_neg (by decide), if_pos ⟨rfl, used⟩]
    rfl
  rw [printed]
  exact ⟨fun exact => exact.fits, fun fits => reportExact_of_fits fits (ref.wf.runs_le_card ref.pages)⟩

/-- In every run each table is in use exactly if its address space has opted in, and holds exactly the frames
that have been faulted in for it since and not been unmapped. The report is that of these frames as long as
their number fits an `int`. -/
theorem life_refines (h : List (LifeEvent μ)) (admitted : Always life_spec life_admits (fun _ => none) h) :
    let k := run (life_step rb) (Mms.start fun _ => false) h
    let w := run life_spec (fun _ => none) h
    ∀ mm, k.use_extents mm = (w mm).isSome ∧ Refines (k.world mm) ((w mm).getD ∅) ∧
      ∀ s pid, w mm = some s → (ReportExact (k.sys_use_extents mm pid 1).2 s ↔ s.card ≤ INT_MAX) := by
  intro k w mm
  have lives : Lives k w := lives_after admitted
  exact ⟨lives.flag mm, lives.refines mm, fun s pid watches => lives.report watches pid⟩

/-- A process opts in late, forks, and the child is reported before both end. -/
theorem life_refines_fork :
    let h : List (LifeEvent Bool) := [.mm_init true false, .fault true true 3, .use_extents true 1 0,
      .fault true true 4, .fault true true 5, .mm_init false true, .fault false false 9,
      .zap (some true) true 3, .zap (some false) false 4, .exit_mmap true, .zap none true 5]
    pages ((run (life_step .plain) (Mms.start fun _ => false) h).world false).nodes = ({9} : Finset ulong) := by
  intro h
  exact (life_refines .plain h (by decide) false).2.1.pages.trans (congrArg _ (by decide))

/-! ## Memory -/

section Memory
variable {rb} {k : Mms μ} {w : μ → Option (Finset ulong)} {mm : μ} {lost extra : Multiset Obj}

/-- What an admitted call allocates and frees. -/
lemma Refines.conserves (rb : Rebalance ExtentNode) {v : World} {s : Finset ulong} {op : Op} (admitted : op.untracked s ∧ op.nowrap s)
    (ref : Refines v s) : ∃ calls extra, (v.step rb op).m = v.m.after (locked calls) ∧
      allocs calls + owned v.nodes = frees calls + owned (v.step rb op).nodes + extra ∧
      (∀ o ∈ extra, o.is_page) ∧ (allocs calls).Nodup ∧ ∀ o ∈ allocs calls,
        v.m.kmallocs ≤ o.addr ∧ o.addr < v.m.kmallocs + calls.countP Event.is_kmalloc := by
  cases op with
  | insert p =>
    obtain ⟨root, calls, run, ins⟩ := ref.inserted rb admitted.1 admitted.2
    refine ⟨calls, 0, by simp only [World.step, run], ?_, by simp, ins.numbered⟩
    simp only [World.step, run]
    exact ins.conserves.trans (add_zero _).symm
  | remove p =>
    by_cases hp : p ∈ s
    · obtain ⟨root, calls, run, rem⟩ := ref.removed rb hp
      obtain ⟨extra, pages, conserved⟩ := rem.conserves
      refine ⟨calls, extra, by simp only [World.step, run], ?_, pages, rem.numbered⟩
      simp only [World.step, run]
      exact conserved
    · have absent := remove_absent rb v.m (mt (ref.mem p).mp hp)
      exact ⟨[], 0, by simp only [World.step, absent], by simp [World.step, absent, World.nodes], by simp,
        by simp, by simp⟩

variable [Fintype μ]

/-- What was allocated has been freed, hangs off a table, or is one of the `lost` page nodes. -/
structure LifeLedger (k : Mms μ) (lost : Multiset Obj) : Prop where
  conserved : allocs k.m.events = frees k.m.events + ∑ mm, owned (k.world mm).nodes + lost
  lost_pages : ∀ o ∈ lost, o.is_page
  nodup : (allocs k.m.events).Nodup
  numbered : ∀ o ∈ allocs k.m.events, o.addr < k.m.kmallocs

omit [DecidableEq μ] in
/-- At the start nothing has been allocated. -/
lemma LifeLedger.boot : LifeLedger (Mms.start fun _ : μ => false) 0 where
  conserved := by simp [Mms.start, Mms.world, World.nodes, ExtentPagetable.empty, Machine.boot, owned]
  lost_pages := by simp
  nodup := Multiset.nodup_zero
  numbered o mem := (Multiset.notMem_zero o mem).elim

/-- The law after some calls on behalf of one table, from the law for these calls. -/
lemma LifeLedger.table (led : LifeLedger k lost) {pt : ExtentPagetable} {calls : List Event}
    (conserved : allocs calls + owned (k.world mm).nodes = frees calls + owned pt.root.inorder + extra)
    (lost_pages : ∀ o ∈ extra, o.is_page)
    (numbered : (allocs calls).Nodup ∧ ∀ o ∈ allocs calls,
      k.m.kmallocs ≤ o.addr ∧ o.addr < k.m.kmallocs + calls.countP Event.is_kmalloc) :
    LifeLedger { k with extent_pt := update k.extent_pt mm pt, m := k.m.after (locked calls) }
      (lost + extra) where
  conserved := by
    have sum := sum_update (fun _ pt => owned pt.root.inorder) k.extent_pt (Finset.mem_univ mm) pt
    -- what hangs off the other tables stays
    have tables : ∑ mm', owned (update k.extent_pt mm pt mm').root.inorder + owned (k.world mm).nodes =
        ∑ mm', owned (k.world mm').nodes + owned pt.root.inorder := sum
    refine add_right_cancel (b := owned (k.world mm).nodes) ?_
    simp only [Machine.events_after, allocs_append, allocs_locked, frees_append, frees_locked, led.conserved]
    calc frees k.m.events + ∑ mm', owned (k.world mm').nodes + lost + allocs calls + owned (k.world mm).nodes
      _ = frees k.m.events + ∑ mm', owned (k.world mm').nodes + lost +
          (allocs calls + owned (k.world mm).nodes) := by abel
      _ = frees k.m.events + frees calls + (∑ mm', owned (k.world mm').nodes + owned pt.root.inorder) +
          (lost + extra) := by rw [conserved]; abel
      _ = frees k.m.events + frees calls +
          (∑ mm', owned (update k.extent_pt mm pt mm').root.inorder + owned (k.world mm).nodes) +
          (lost + extra) := by rw [tables]
      _ = frees k.m.events + frees calls + ∑ mm', owned (update k.extent_pt mm pt mm').root.inorder +
          (lost + extra) + owned (k.world mm).nodes := by abel
  lost_pages o mem := by
    cases Multiset.mem_add.mp mem with
    | inl mem => exact led.lost_pages o mem
    | inr mem => exact lost_pages o mem
  nodup := by
    simp only [Machine.events_after, allocs_append, allocs_locked]
    refine Multiset.nodup_add.mpr ⟨led.nodup, numbered.1, Multiset.disjoint_left.mpr ?_⟩
    intro o old new
    have := led.numbered o old
    have := (numbered.2 o new).1
    omega
  numbered o mem := by
    simp only [Machine.events_after, allocs_append, allocs_locked] at mem
    simp only [Machine.kmallocs_after, countP_locked]
    cases Multiset.mem_add.mp mem with
    | inl mem =>
      have := led.numbered o mem
      omega
    | inr mem => exact (numbered.2 o mem).2

/-- An entry point is called on the table of an address space that watches. -/
lemma LifeLedger.call (led : LifeLedger k lost) (lives : Lives k w) {s : Finset ulong}
    (watches : w mm = some s) {op : Op} (admitted : op.untracked s ∧ op.nowrap s) :
    ∃ lost', LifeLedger (k.call rb mm op) lost' := by
  have ref : Refines (k.world mm) s := by
    have := lives.refines mm
    rwa [watches] at this
  obtain ⟨calls, extra, machine, conserved, pages, numbered⟩ := ref.conserves rb admitted
  have call : k.call rb mm op = { k with
      extent_pt := update k.extent_pt mm ((k.world mm).step rb op).pt, m := k.m.after (locked calls) } := by
    rw [Mms.call]
    congr 1
  rw [call]
  exact ⟨_, led.table conserved pages numbered⟩

/-- Whatever happens, nothing but page nodes is lost. -/
lemma LifeLedger.step (led : LifeLedger k lost) (lives : Lives k w) {e : LifeEvent μ}
    (admitted : life_admits w e) : ∃ lost', LifeLedger (life_step rb k e) lost' := by
  have quiet : ∀ calls flag, allocs calls = 0 → frees calls = 0 →
      LifeLedger { k with use_extents := flag, m := k.m.after calls } lost := by
    intro calls flag none no
    have kmallocs : k.m.kmallocs ≤ (k.m.after calls).kmallocs := by simp
    refine ⟨?_, led.lost_pages, ?_, fun o mem => ?_⟩
    · simpa [none, no, Mms.world, World.nodes] using led.conserved
    · simpa [none] using led.nodup
    · exact (led.numbered o (by simpa [none] using mem)).trans_le kmallocs
  cases e with
  | mm_init mm use_extents =>
    -- nobody uses the old table
    have ref := lives.refines mm
    rw [show (w mm).getD ∅ = ∅ from admitted] at ref
    have table : k.extent_pt mm = .empty := by
      have none : (k.world mm).nodes = [] := ref.nodes_eq_nil
      rw [ExtentPagetable.empty, ← nil_of_inorder none]
      rfl
    have same := quiet [] (update k.use_extents mm use_extents) rfl rfl
    refine ⟨lost, ?_⟩
    rw [life_step, Mms.mm_init, ← table, update_eq_self]
    simpa using same
  | use_extents cur pid flag =>
    by_cases zero : flag = 0
    · subst zero
      have same := quiet [] (update k.use_extents cur true) rfl rfl
      refine ⟨lost, ?_⟩
      simpa [life_step, Mms.sys_use_extents] using same
    · obtain ⟨calls, ⟨none, no⟩, printed⟩ := sys_use_extents_one k cur pid zero
      refine ⟨lost, ?_⟩
      rw [life_step, printed]
      exact quiet calls _ none no
  | fault cur mm pfn =>
    obtain ⟨⟨frame, fresh⟩, own⟩ := admitted
    cases watches : w cur with
    | none =>
      simp only [life_step, Mms.do_anonymous_page, lives.unused_iff.mpr watches]
      exact ⟨lost, led⟩
    | some s =>
      obtain rfl : cur = mm := own.resolve_right fun none => by simp [none.1] at watches
      rw [watches, Option.getD_some] at fresh
      simp only [life_step, Mms.do_anonymous_page, lives.used watches, if_true]
      exact led.call lives watches (admitted_of_fresh frame fresh)
  | zap cur mm pfn =>
    cases cur with
    | none => exact ⟨lost, led⟩
    | some cur =>
      cases watches : w cur with
      | none =>
        simp only [life_step, Mms.zap_pte_range, lives.unused_iff.mpr watches]
        exact ⟨lost, led⟩
      | some s =>
        simp only [life_step, Mms.zap_pte_range, lives.used watches, if_true]
        exact led.call lives watches ⟨trivial, trivial⟩
  | exit_mmap mm =>
    cases used : k.use_extents mm with
    | false =>
      simp only [life_step, Mms.exit_mmap, used]
      exact ⟨lost, led⟩
    | true =>
      obtain ⟨pages, all, own, _, none⟩ := teardown_conserves (k.world mm).nodes
      simp only [life_step, exit_mmap_eq k used]
      refine ⟨lost + pages, led.table ?_ all (by simp [none])⟩
      rw [none, own]
      simp

omit [DecidableEq μ] in
/-- The objects that have been freed, and those that hang off a table. -/
lemma LifeLedger.objects (led : LifeLedger k lost) : (frees k.m.events).Nodup ∧
    (∀ o ∈ frees k.m.events, o ∈ allocs k.m.events) ∧
    ∀ o ∈ allocs k.m.events, ¬o.is_page →
      (o ∈ frees k.m.events ↔ ∀ mm, o ∉ owned (k.world mm).nodes) := by
  have nodup := led.nodup
  rw [led.conserved] at nodup
  obtain ⟨live, _, _⟩ := Multiset.nodup_add.mp nodup
  obtain ⟨once, _, apart⟩ := Multiset.nodup_add.mp live
  refine ⟨once, fun o freed => ?_, fun o mem page => ?_⟩
  · rw [led.conserved]
    exact Multiset.mem_add.mpr (.inl (Multiset.mem_add.mpr (.inl freed)))
  · constructor
    · intro freed mm hangs
      refine Multiset.disjoint_left.mp apart freed ?_
      exact Multiset.mem_sum.mpr ⟨mm, Finset.mem_univ mm, hangs⟩
    · intro none
      rw [led.conserved, Multiset.mem_add, Multiset.mem_add] at mem
      rcases mem with (freed | hangs) | lost
      · exact freed
      · obtain ⟨mm, _, hangs⟩ := Multiset.mem_sum.mp hangs
        exact absurd hangs (none mm)
      · exact absurd (led.lost_pages o lost) page

end Memory

/-- In every run nothing is freed twice or without having been allocated, and an extent or a tree node has
been freed exactly if it hangs off no table. An address space that has exited has no nodes. -/
theorem life_ledger [Fintype μ] (h : List (LifeEvent μ))
    (admitted : Always life_spec life_admits (fun _ => none) h) :
    let k := run (life_step rb) (Mms.start fun _ => false) h
    (frees k.m.events).Nodup ∧ (∀ o ∈ frees k.m.events, o ∈ allocs k.m.events) ∧
      (∀ o ∈ allocs k.m.events, ¬o.is_page →
        (o ∈ frees k.m.events ↔ ∀ mm, o ∉ owned (k.world mm).nodes)) ∧
      ∀ mm, ((k.exit_mmap rb mm).world mm).nodes = [] := by
  intro k
  have key : ∃ lost, LifeLedger k lost := by
    have both : ∀ {h : List (LifeEvent μ)} {k : Mms μ} {w : μ → Option (Finset ulong)} {lost : Multiset Obj},
        Lives k w → LifeLedger k lost → Always life_spec life_admits w h →
          ∃ lost', LifeLedger (run (life_step rb) k h) lost' := by
      intro h
      induction h with
      | nil => exact fun {k w lost} _ led _ => ⟨lost, led⟩
      | cons e h ih =>
        intro k w lost lives led admitted
        obtain ⟨lost', led'⟩ : ∃ lost', LifeLedger (life_step rb k e) lost' := led.step lives admitted.1
        exact ih (lives.step admitted.1) led' admitted.2
    exact both .boot .boot admitted
  obtain ⟨lost, led⟩ := key
  obtain ⟨once, freed, hangs⟩ := led.objects
  refine ⟨once, freed, hangs, fun mm => ?_⟩
  have lives : Lives k (run life_spec (fun _ => none) h) := lives_after admitted
  have exits : Lives (life_step rb k (.exit_mmap mm)) _ := lives.step trivial
  have gone := exits.refines mm
  have none : (life_spec (run life_spec (fun _ => .none) h) (.exit_mmap mm) mm).getD ∅ = ∅ := by
    rw [life_spec, update_self]
    cases run life_spec (fun _ => .none) h mm <;> rfl
  rw [none] at gone
  exact gone.nodes_eq_nil

/-- A process exits with two extents, and its child goes on with one. -/
theorem life_ledger_fork :
    (frees (run (life_step .plain) (Mms.start fun _ : Bool => false) [.mm_init true false,
      .use_extents true 1 0, .fault true true 4, .fault true true 6, .mm_init false true,
      .fault false false 9, .exit_mmap true, .zap none true 4]).m.events).Nodup :=
  (life_ledger .plain [.mm_init true false, .use_extents true 1 0, .fault true true 4, .fault true true 6,
    .mm_init false true, .fault false false 9, .exit_mmap true, .zap none true 4] (by decide)).1

end CS519.Extents
