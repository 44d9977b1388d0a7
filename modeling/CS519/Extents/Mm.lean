import CS519.Extents.Refine

/-!
# Address spaces

Every address space has a table and a flag of its own. The two hooks, in `do_anonymous_page` and in
`zap_pte_range`, know the address space of the page they are called for, but update the table of
`current->mm`. `follows` is what the tables are for: each one holds the frames of its own address space.
It holds along exactly those runs in which no event is handled on behalf of another address space that
uses extents, or by one (`follows_iff`).
-/

namespace CS519.Extents
variable {μ : Type} [DecidableEq μ]

/-- The fields of the address spaces that the hooks use, and the machine. -/
structure Mms (μ : Type) where
  extent_pt : μ → ExtentPagetable
  use_extents : μ → Bool
  m : Machine

/-- What happens to a page of an address space `mm`, while `current->mm` is `cur`. -/
inductive MmEvent (μ : Type) where
  | fault (cur mm : μ) (pfn : ulong)
  | zap (cur : Option μ) (mm : μ) (pfn : ulong)

namespace MmEvent

/-- The address space that the page belongs to. -/
def mm : MmEvent μ → μ
  | fault _ mm _ => mm
  | zap _ mm _ => mm

end MmEvent

namespace Mms

/-- New address spaces. -/
def start (use_extents : μ → Bool) : Mms μ := ⟨fun _ => .empty, use_extents, .boot fun _ => true⟩

/-- The table of an address space with its machine. -/
def world (k : Mms μ) (mm : μ) : World := ⟨k.extent_pt mm, k.m⟩

/-- Call one of the entry points on the table of an address space, and drop the return code. -/
def call (rb : Rebalance ExtentNode) (k : Mms μ) (mm : μ) (op : Op) : Mms μ :=
  let w := (k.world mm).step rb op
  { k with extent_pt := Function.update k.extent_pt mm w.pt, m := w.m }

/-- The hook in `do_anonymous_page`. -/
def do_anonymous_page (rb : Rebalance ExtentNode) (k : Mms μ) (cur : Option μ) (pfn : ulong) : Mms μ :=
  match cur with
  | some mm => if k.use_extents mm then k.call rb mm (.insert pfn) else k
  | none => k

/-- The hook in `zap_pte_range`. -/
def zap_pte_range (rb : Rebalance ExtentNode) (k : Mms μ) (cur : Option μ) (pfn : ulong) : Mms μ :=
  match cur with
  | some mm => if k.use_extents mm then k.call rb mm (.remove pfn) else k
  | none => k

/-- The tables after an event. -/
def step (rb : Rebalance ExtentNode) (k : Mms μ) : MmEvent μ → Mms μ
  | .fault cur _ pfn => k.do_anonymous_page rb (some cur) pfn
  | .zap cur _ pfn => k.zap_pte_range rb cur pfn

end Mms

/-- The frames of each address space after an event. -/
def install (s : μ → Finset ulong) : MmEvent μ → μ → Finset ulong
  | .fault _ mm pfn => Function.update s mm (insert pfn (s mm))
  | .zap _ mm pfn => Function.update s mm ((s mm).erase pfn)

def PAGE_SHIFT : Nat := 12

/-- The number of a page frame whose address is an `unsigned long`. -/
def is_pfn (pfn : ulong) : Prop := pfn.toNat <<< PAGE_SHIFT < 2 ^ 64

instance (pfn : ulong) : Decidable (is_pfn pfn) := inferInstanceAs (Decidable (_ < _))

/-- A fault installs a frame that no address space has, and a zap removes one that its own has. -/
def possible (s : μ → Finset ulong) : MmEvent μ → Prop
  | .fault _ _ pfn => is_pfn pfn ∧ ∀ mm, pfn ∉ s mm
  | .zap _ mm pfn => pfn ∈ s mm

instance [Fintype μ] (s : μ → Finset ulong) : ∀ e, Decidable (possible s e)
  | .fault _ _ pfn => inferInstanceAs (Decidable (is_pfn pfn ∧ ∀ mm, pfn ∉ s mm))
  | .zap _ mm pfn => inferInstanceAs (Decidable (pfn ∈ s mm))

section
variable (rb : Rebalance ExtentNode)

/-- The event changes the table of its own address space only, and after it every address space that uses
extents has its own frames in its table. -/
def follows (x : Mms μ × (μ → Finset ulong)) (e : MmEvent μ) : Prop :=
  (∀ mm, mm ≠ e.mm → (x.1.step rb e).extent_pt mm = x.1.extent_pt mm) ∧
    ∀ mm, x.1.use_extents mm → pages ((x.1.step rb e).world mm).nodes = install x.2 e mm

/-- The tables beside the frames. -/
def both (x : Mms μ × (μ → Finset ulong)) (e : MmEvent μ) : Mms μ × (μ → Finset ulong) :=
  (x.1.step rb e, install x.2 e)

/-- The event is handled by its own address space, or no table is concerned: for a zap that of its
address space, for a fault that of `current->mm` either. -/
def own_behalf (k : Mms μ) : MmEvent μ → Prop
  | .fault cur mm _ => cur = mm ∨ (k.use_extents cur = false ∧ k.use_extents mm = false)
  | .zap cur mm _ => cur = some mm ∨ k.use_extents mm = false

instance (k : Mms μ) : ∀ e, Decidable (own_behalf k e)
  | .fault cur mm _ => inferInstanceAs
      (Decidable (cur = mm ∨ (k.use_extents cur = false ∧ k.use_extents mm = false)))
  | .zap cur mm _ => inferInstanceAs (Decidable (cur = some mm ∨ k.use_extents mm = false))

end

/-- The tables in use refine the frames of their address spaces, and no two address spaces share a
frame. -/
structure Follows (k : Mms μ) (s : μ → Finset ulong) : Prop where
  refines : ∀ mm, k.use_extents mm → Refines (k.world mm) (s mm)
  disjoint : ∀ {mm mm' p}, p ∈ s mm → p ∈ s mm' → mm = mm'

section
variable (rb : Rebalance ExtentNode) {k : Mms μ} {s : μ → Finset ulong} {mm : μ} {e : MmEvent μ}

omit [DecidableEq μ] in
/-- New address spaces have no frames. -/
lemma Follows.start (use_extents : μ → Bool) : Follows (Mms.start use_extents) fun _ => ∅ where
  refines _ _ := Refines.start
  disjoint h := (Finset.notMem_empty _ h).elim

/-- The machine after an admitted call has made some more calls. -/
lemma Refines.step_machine {w : World} {t : Finset ulong} {op : Op}
    (admitted : op.untracked t ∧ op.nowrap t) (ref : Refines w t) :
    ∃ calls, (w.step rb op).m = w.m.after calls := by
  cases op with
  | insert p =>
    obtain ⟨root, calls, run, _⟩ := ref.inserted rb admitted.1 admitted.2
    exact ⟨locked calls, by simp only [World.step, run]⟩
  | remove p =>
    by_cases hp : p ∈ t
    · obtain ⟨root, calls, run, _⟩ := ref.removed rb hp
      exact ⟨locked calls, by simp only [World.step, run]⟩
    · exact ⟨locked [], by simp only [World.step, remove_absent rb w.m (mt (ref.mem p).mp hp)]⟩

/-- A table is not affected by what happens elsewhere on the machine. -/
lemma Refines.frame {w : World} {t : Finset ulong} (ref : Refines w t) (calls : List Event) :
    Refines ⟨w.pt, w.m.after calls⟩ t where
  wf := ref.wf
  pages := ref.pages
  fresh en mem := by
    have := ref.fresh en mem
    rw [Machine.kmallocs_after]
    omega
  succeeds := ref.succeeds

/-- An admitted call on the table of one address space. -/
lemma Follows.call (fol : Follows k s) {op : Op} (used : k.use_extents mm)
    (admitted : op.untracked (s mm) ∧ op.nowrap (s mm)) :
    ∀ mm', k.use_extents mm' →
      Refines ((k.call rb mm op).world mm') (Function.update s mm (track (s mm) op) mm') := by
  intro mm' used'
  have ref := fol.refines mm used
  by_cases e : mm' = mm
  · subst e
    simpa [Mms.call, Mms.world] using step_refines rb admitted ref
  · obtain ⟨calls, machine⟩ := ref.step_machine rb admitted
    have world : (k.call rb mm op).world mm' = ⟨k.extent_pt mm', k.m.after calls⟩ := by
      rw [← show (k.call rb mm op).m = k.m.after calls from machine]
      simp [Mms.world, Mms.call, Function.update_of_ne e]
    rw [world, Function.update_of_ne e]
    exact (fol.refines mm' used').frame calls

/-- A frame that no address space has may be inserted. -/
lemma admitted_of_fresh {t : Finset ulong} {pfn : ulong} (frame : is_pfn pfn) (np : pfn ∉ t) :
    (Op.insert pfn).untracked t ∧ (Op.insert pfn).nowrap t := by
  refine ⟨np, fun wrap => ?_⟩
  have lt : pfn.toNat * 2 ^ PAGE_SHIFT < 2 ^ 64 := by
    rw [← Nat.shiftLeft_eq]
    exact frame
  simp only [PAGE_SHIFT] at lt
  bv_omega

/-- No event changes who uses extents. -/
@[simp] lemma Mms.step_use_extents (e : MmEvent μ) : (k.step rb e).use_extents = k.use_extents := by
  cases e with
  | fault cur mm pfn =>
    simp only [Mms.step, Mms.do_anonymous_page]
    split <;> rfl
  | zap cur mm pfn =>
    cases cur with
    | none => rfl
    | some c =>
      simp only [Mms.step, Mms.zap_pte_range]
      split <;> rfl

/-- A call leaves the other tables. -/
lemma Mms.call_of_ne {op : Op} {mm' : μ} (ne : mm' ≠ mm) :
    (k.call rb mm op).extent_pt mm' = k.extent_pt mm' :=
  Function.update_of_ne ne _ _

/-- No two address spaces share a frame after an event. -/
lemma disjoint_install (disjoint : ∀ {mm mm' p}, p ∈ s mm → p ∈ s mm' → mm = mm')
    (poss : possible s e) : ∀ {mm mm' p}, p ∈ install s e mm → p ∈ install s e mm' → mm = mm' := by
  have old : ∀ {mm p}, p ∈ install s e mm →
      p ∈ s mm ∨ ((∀ m, p ∉ s m) ∧ mm = e.mm) := by
    intro m p mem
    cases e with
    | fault cur mm pfn =>
      by_cases same : m = mm
      · subst same
        simp only [install, Function.update_self, Finset.mem_insert] at mem
        rcases mem with rfl | mem
        · exact .inr ⟨poss.2, rfl⟩
        · exact .inl mem
      · exact .inl (by simpa [install, Function.update_of_ne same] using mem)
    | zap cur mm pfn =>
      by_cases same : m = mm
      · subst same
        simp only [install, Function.update_self] at mem
        exact .inl (Finset.mem_of_mem_erase mem)
      · exact .inl (by simpa [install, Function.update_of_ne same] using mem)
  intro mm mm' p h h'
  rcases old h with h | ⟨no, rfl⟩
  · rcases old h' with h' | ⟨no', _⟩
    · exact disjoint h h'
    · exact (no' mm h).elim
  · rcases old h' with h' | ⟨_, rfl⟩
    · exact (no mm' h').elim
    · rfl

/-- Where the tables refine the frames after an event, they hold them. -/
lemma follows_of_refines (others : ∀ mm, mm ≠ e.mm → (k.step rb e).extent_pt mm = k.extent_pt mm)
    (refines : ∀ mm, k.use_extents mm → Refines ((k.step rb e).world mm) (install s e mm))
    (fol : Follows k s) (poss : possible s e) :
    follows rb (k, s) e ∧ Follows (k.step rb e) (install s e) := by
  refine ⟨⟨others, fun mm used => (refines mm used).pages⟩, fun mm used => ?_,
    disjoint_install fol.disjoint poss⟩
  rw [Mms.step_use_extents] at used
  exact refines mm used

/-- An address space that does not use extents may have any frames. -/
lemma Follows.unused (fol : Follows k s) (unused : k.use_extents mm = false) (t : Finset ulong) :
    ∀ mm', k.use_extents mm' → Refines (k.world mm') (Function.update s mm t mm') := by
  intro mm' used
  have ne : mm' ≠ mm := by
    rintro rfl
    simp [unused] at used
  rw [Function.update_of_ne ne]
  exact fol.refines mm' used

/-- The removal of a frame that an address space does not have changes no table. -/
lemma Follows.call_absent (fol : Follows k s) {pfn : ulong} (used : k.use_extents mm)
    (np : pfn ∉ s mm) : (k.call rb mm (.remove pfn)).extent_pt = k.extent_pt := by
  have ref := fol.refines mm used
  have absent := remove_absent rb k.m (mt (ref.mem pfn).mp np)
  have same : ((k.world mm).step rb (.remove pfn)).pt = k.extent_pt mm := by
    simp only [World.step]
    exact congrArg (fun r => r.1.2) absent
  rw [Mms.call, same, Function.update_eq_self]

/-- An event that is handled on its own behalf does what it should. -/
lemma follows_step (fol : Follows k s) (poss : possible s e) (own : own_behalf k e) :
    follows rb (k, s) e ∧ Follows (k.step rb e) (install s e) := by
  cases e with
  | fault cur mm pfn =>
    cases used : k.use_extents cur with
    | true =>
      -- the table in use is the right one
      obtain rfl : cur = mm := own.resolve_right fun h => by simp [used] at h
      have step : k.step rb (.fault cur cur pfn) = k.call rb cur (.insert pfn) := by
        simp [Mms.step, Mms.do_anonymous_page, used]
      refine follows_of_refines rb (fun m ne => ?_) ?_ fol poss
      · rw [step]
        exact Mms.call_of_ne rb ne
      · rw [step]
        exact fol.call rb used (admitted_of_fresh poss.1 (poss.2 cur))
    | false =>
      have unused : k.use_extents mm = false := by
        rcases own with rfl | own
        · exact used
        · exact own.2
      have step : k.step rb (.fault cur mm pfn) = k := by
        simp [Mms.step, Mms.do_anonymous_page, used]
      refine follows_of_refines rb (fun m ne => by rw [step]) ?_ fol poss
      rw [step]
      exact fol.unused unused _
  | zap cur mm pfn =>
    cases used : k.use_extents mm with
    | true =>
      obtain rfl : cur = some mm := own.resolve_right fun h => by simp [used] at h
      have step : k.step rb (.zap (some mm) mm pfn) = k.call rb mm (.remove pfn) := by
        simp [Mms.step, Mms.zap_pte_range, used]
      refine follows_of_refines rb (fun m ne => ?_) ?_ fol poss
      · rw [step]
        exact Mms.call_of_ne rb ne
      · rw [step]
        exact fol.call rb used ⟨trivial, trivial⟩
    | false =>
      have kept : (∀ m, (k.step rb (.zap cur mm pfn)).extent_pt m = k.extent_pt m) ∧
          ∀ m, k.use_extents m → Refines ((k.step rb (.zap cur mm pfn)).world m) (s m) := by
        cases cur with
        | none => exact ⟨fun _ => rfl, fol.refines⟩
        | some c =>
          cases used' : k.use_extents c with
          | false =>
            have step : k.step rb (.zap (some c) mm pfn) = k := by
              simp [Mms.step, Mms.zap_pte_range, used']
            rw [step]
            exact ⟨fun _ => rfl, fol.refines⟩
          | true =>
            -- the frame is not one of the address space whose table is in use
            have np : pfn ∉ s c := by
              intro mem
              rw [fol.disjoint mem poss, used] at used'
              cases used'
            have step : k.step rb (.zap (some c) mm pfn) = k.call rb c (.remove pfn) := by
              simp [Mms.step, Mms.zap_pte_range, used']
            have admitted : (Op.remove pfn).untracked (s c) ∧ (Op.remove pfn).nowrap (s c) :=
              ⟨trivial, trivial⟩
            have call := fol.call rb used' admitted
            rw [track, Finset.erase_eq_of_notMem np, Function.update_eq_self] at call
            rw [step]
            exact ⟨fun m => congrFun (fol.call_absent rb used' np) m, call⟩
      refine follows_of_refines rb (fun m _ => kept.1 m) (fun m used' => ?_) fol poss
      have ne : m ≠ mm := by
        rintro rfl
        simp [used] at used'
      rw [install, Function.update_of_ne ne]
      exact kept.2 m used'

/-- An event that does what it should is handled on its own behalf. -/
lemma own_behalf_of_follows (fol : Follows k s) (poss : possible s e)
    (does : follows rb (k, s) e) : own_behalf k e := by
  obtain ⟨others, own⟩ := does
  cases e with
  | fault cur mm pfn =>
    by_cases same : cur = mm
    · exact .inl same
    apply Or.inr
    have np := poss.2
    have unused : k.use_extents cur = false := by
      by_contra used
      rw [Bool.not_eq_false] at used
      have step : k.step rb (.fault cur mm pfn) = k.call rb cur (.insert pfn) := by
        simp [Mms.step, Mms.do_anonymous_page, used]
      have ref := fol.call rb used (admitted_of_fresh poss.1 (np cur)) cur used
      have grown : pfn ∈ pages ((k.call rb cur (.insert pfn)).world cur).nodes := by
        rw [ref.mem, Function.update_self]
        exact Finset.mem_insert_self pfn _
      have kept := others cur same
      rw [step] at kept
      rw [World.nodes, Mms.world, kept] at grown
      exact np cur (((fol.refines cur used).mem pfn).mp grown)
    refine ⟨unused, ?_⟩
    by_contra used
    rw [Bool.not_eq_false] at used
    have step : k.step rb (.fault cur mm pfn) = k := by
      simp [Mms.step, Mms.do_anonymous_page, unused]
    have held := own mm used
    rw [step, install, Function.update_self, (fol.refines mm used).pages] at held
    have mem : pfn ∈ s mm := by
      rw [← Finset.mem_coe, held]
      simp
    exact np mm mem
  | zap cur mm pfn =>
    by_cases same : cur = some mm
    · exact .inl same
    apply Or.inr
    by_contra used
    rw [Bool.not_eq_false] at used
    have kept : (k.step rb (.zap cur mm pfn)).extent_pt mm = k.extent_pt mm := by
      cases cur with
      | none => rfl
      | some c =>
        have ne : mm ≠ c := fun e => same (congrArg some e.symm)
        simp only [Mms.step, Mms.zap_pte_range]
        split
        · exact Mms.call_of_ne rb ne
        · rfl
    have held := own mm used
    rw [World.nodes, Mms.world, kept, install, Function.update_self] at held
    have ref := fol.refines mm used
    have mem : pfn ∈ pages (k.world mm).nodes := (ref.mem pfn).mpr poss
    rw [World.nodes, Mms.world, held] at mem
    simp at mem

/-- In every run of faults that install unused frames and zaps that remove present ones, the tables follow
their address spaces exactly if every event is handled on its own behalf. -/
theorem follows_iff (use_extents : μ → Bool) (h : List (MmEvent μ))
    (poss : Always install possible (fun _ => ∅) h) :
    Always (both rb) (follows rb) (Mms.start use_extents, fun _ => ∅) h ↔
      Always (Mms.step rb) own_behalf (Mms.start use_extents) h := by
  have key : ∀ (k : Mms μ) (s : μ → Finset ulong), Follows k s → Always install possible s h →
      (Always (both rb) (follows rb) (k, s) h ↔ Always (Mms.step rb) own_behalf k h) := by
    clear poss
    -- as long as either side holds, the tables follow
    induction h with
    | nil => exact fun _ _ _ _ => Iff.rfl
    | cons e h ih =>
      intro k s fol poss
      constructor
      · intro ⟨does, rest⟩
        have own := own_behalf_of_follows rb fol poss.1 does
        obtain ⟨_, fol'⟩ := follows_step rb fol poss.1 own
        exact ⟨own, (ih _ _ fol' poss.2).mp rest⟩
      · intro ⟨own, rest⟩
        obtain ⟨does, fol'⟩ := follows_step rb fol poss.1 own
        exact ⟨does, (ih _ _ fol' poss.2).mpr rest⟩
  exact key _ _ (.start use_extents) poss

end

/-- Two address spaces fault in a page each, and one of them is reaped by a thread without an address
space while it does not use extents. -/
theorem follows_iff_reap : Always (both .plain) (follows .plain)
    (Mms.start id, fun _ => ∅)
    [.fault true true 5, .fault false false 6, .zap none false 6, .zap (some true) true 5] :=
  (follows_iff .plain id
    [.fault true true 5, .fault false false 6, .zap none false 6, .zap (some true) true 5]
    (by decide)).mpr (by decide)

/-- A fault on behalf of another address space puts the frame into the wrong table. -/
theorem not_follows : ¬∀ (rb : Rebalance ExtentNode) (use_extents : Bool → Bool)
    (h : List (MmEvent Bool)), Always install possible (fun _ => ∅) h →
      Always (both rb) (follows rb) (Mms.start use_extents, fun _ => ∅) h := by
  intro all
  obtain ⟨⟨others, _⟩, _⟩ := all .plain (fun _ => true) [.fault false true 5] (by decide)
  exact absurd (others false (by decide)) (by decide)

end CS519.Extents
