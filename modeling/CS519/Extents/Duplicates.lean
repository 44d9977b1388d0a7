import CS519.Extents.Canonical

/-!
# Inserting a page twice

`extent_rb_insert_or_add` does not look whether the page is covered already: it never calls
`extent_rb_find_containing`, and the two adjacency searches find nothing next to a covered page, so the
page gets a second extent of its own (`insert_covered`). `TracksOnce` is what its header comment asks for;
it holds of the histories that insert untracked pages only, and of no others
(`tracks_once_iff`).
-/

namespace CS519.Extents
open Runs ExtentNode

section
variable (rb : Rebalance ExtentNode)

/-- After the call the extents are disjoint, the insertion of a covered page has not changed the report,
and no extent covers a removed page. -/
def tracks_once (w : World) (op : Op) : Prop :=
  (w.step rb op).nodes.Pairwise
    (fun a b => ∀ p, ¬(extent_pte_contains a.ex p ∧ extent_pte_contains b.ex p)) ∧
  match op with
  | .insert p => p ∈ pages w.nodes → report (w.step rb op).nodes = report w.nodes
  | .remove p => p ∉ pages (w.step rb op).nodes

/-- Every call of a history tracks each page at most once. -/
def TracksOnce (h : List Op) : Prop :=
  Always (World.step rb) (tracks_once rb) (World.start fun _ => true) h

/-- A covered page gets another extent. -/
lemma insert_covered {w : World} {s : Finset ulong} (ref : Refines w s) {p : ulong} (hp : p ∈ s)
    (nowrap : Op.nowrap s (.insert p)) :
    (w.step rb (.insert p)).nodes.length = w.nodes.length + 1 := by
  obtain ⟨A, en, B, e, cov⟩ := ref.wf.split ((ref.mem p).mpr hp)
  have adj := find_all_adjacent_covered ref.wf.canonical e cov
    fun w => (ref.mem 0).not.mpr (nowrap w)
  simp only [World.step, World.nodes, extent_rb_insert_or_add, adj, insert_beside, with_lock,
    insert_new, kern_bind, kern_pure, kmalloc_apply, spin_lock_irqsave_apply,
    Machine.kmalloc_ok_after, ref.kmalloc_ok, if_true, extent_init_eq, extent_rb_insert,
    rb.inorder_insertColor, Tree.length_inorder_link]

/-- No page lies in two extents of a well-formed table. -/
lemma Wf.disjoint {l : List ExtentNode} (wf : Wf l) :
    l.Pairwise (fun a b => ∀ p, ¬(extent_pte_contains a.ex p ∧ extent_pte_contains b.ex p)) := by
  refine wf.canonical.disjoint.imp fun apart p both => apart p.toNat ?_
  rw [contains_iff, contains_iff] at both
  exact both

/-- An admitted call tracks each page once. -/
lemma tracks_once_step {w : World} {s : Finset ulong} {op : Op}
    (admitted : op.untracked s ∧ op.nowrap s) (ref : Refines w s) : tracks_once rb w op := by
  have ref' := step_refines rb admitted ref
  refine ⟨ref'.wf.disjoint, ?_⟩
  cases op with
  | insert p => exact fun covered => (admitted.1 ((ref.mem p).mp covered)).elim
  | remove p =>
    intro covered
    have := (ref'.mem p).mp covered
    simp [track] at this

/-- A call that tracks each page once is of an untracked page. -/
lemma untracked_of_tracks_once {w : World} {s : Finset ulong} {op : Op} (ref : Refines w s)
    (nowrap : op.nowrap s) (once : tracks_once rb w op) : op.untracked s := by
  cases op with
  | insert p =>
    intro hp
    have same := once.2 ((ref.mem p).mpr hp)
    have more := insert_covered rb ref hp nowrap
    have := congrArg List.length same
    simp only [report, List.length_map] at this
    omega
  | remove p => trivial

/-- The histories that track each page once in every state are those that insert untracked pages only. -/
theorem tracks_once_iff {h : List Op} (nowrap : NoWrap h) : TracksOnce rb h ↔ Untracked h := by
  constructor
  · have key : ∀ (w : World) (s : Finset ulong), Refines w s → Always track Op.nowrap s h →
        Always (World.step rb) (tracks_once rb) w h → Always track Op.untracked s h := by
      clear nowrap
      intro w s ref nowrap all
      induction h generalizing w s with
      | nil => trivial
      | cons op h ih =>
        have here := untracked_of_tracks_once rb ref nowrap.1 all.1
        have ref' := step_refines rb ⟨here, nowrap.1⟩ ref
        exact ⟨here, ih _ _ ref' nowrap.2 all.2⟩
    exact key _ _ Refines.start nowrap
  · intro untracked
    have step : ∀ (w : World) (s : Finset ulong) (op : Op), op.untracked s ∧ op.nowrap s →
        Refines w s → tracks_once rb w op ∧ Refines (w.step rb op) (track s op) :=
      fun w s op admitted ref => ⟨tracks_once_step rb admitted ref, step_refines rb admitted ref⟩
    exact always_refines step Refines.start (legal_iff.mpr ⟨untracked, nowrap⟩)

end

/-- A page is inserted again after its removal. -/
theorem tracks_once_iff_again : TracksOnce .plain [.insert 5, .remove 5, .insert 5] :=
  (tracks_once_iff .plain (h := [.insert 5, .remove 5, .insert 5]) (by decide)).mpr (by decide)

/-- A page that is inserted twice has two extents. -/
theorem not_tracks_once : ¬∀ rb h, TracksOnce rb h := by
  intro all
  obtain ⟨_, ⟨_, same⟩, _⟩ := all .plain [.insert 5, .insert 5]
  have covered : (5 : ulong) ∈ pages (World.after .plain (fun _ => true) [.insert 5]).nodes :=
    ⟨⟨1, .single 0 [⟨2, 5⟩] 5⟩, by decide, by decide⟩
  exact absurd (same covered) (by decide)

end CS519.Extents
