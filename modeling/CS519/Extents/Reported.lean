import CS519.Extents.Ledger

/-!
# What a removal reports

The return code of `extent_rb_remove_page` and what it promises, for every well-formed table, whatever
its page lists hold: `-EINVAL` for a page that no extent covers, `-ENOMEM` where a split lacks one of its
three objects, and in both cases nothing has changed and nothing is kept (`remove_reports`).
-/

namespace CS519.Extents
open ExtentNode

/-- The page lies in the range of an extent and is neither its first nor its last page. -/
def strictly_inside (l : List ExtentNode) (p : ulong) : Prop :=
  ∃ en ∈ l, en.lo < p.toNat ∧ p.toNat < en.hi

/-- The extent and the two tree nodes that a split needs can be allocated. -/
def split_allocates (ok : Nat → Bool) : Prop := ok 0 ∧ ok 1 ∧ ok 2

section Outcomes
variable {p : ulong} {n : Nat} {ok : Nat → Bool} {root root' : Tree ExtentNode} {calls : List Event}

/-- An inner page is covered. -/
lemma covered_of_inside {l : List ExtentNode} (inside : strictly_inside l p) : p ∈ pages l := by
  obtain ⟨en, mem, lt, gt⟩ := inside
  exact ⟨en, mem, contains_iff.mpr ⟨lt.le, gt.le⟩⟩

/-- Only a removal from the middle can fail. -/
lemma RemoveFailed.inside (fail : RemoveFailed p n ok root calls) : strictly_inside root.inorder p := by
  cases fail with
  | no_extent _ e _ lt gt => exact ⟨_, by simp [e], lt, gt⟩
  | no_left _ _ e _ lt gt => exact ⟨_, by simp [e], lt, gt⟩
  | no_right _ _ _ e _ lt gt => exact ⟨_, by simp [e], lt, gt⟩

/-- A removal fails because an allocation for the split does. -/
lemma RemoveFailed.unallocated (fail : RemoveFailed p n ok root calls) : ¬split_allocates ok := by
  rintro ⟨ok0, ok1, ok2⟩
  cases fail with
  | no_extent no => simp [no] at ok0
  | no_left _ no => simp [no] at ok1
  | no_right _ _ no => simp [no] at ok2

/-- The cleanup frees what was allocated. -/
lemma RemoveFailed.conserves (fail : RemoveFailed p n ok root calls) : allocs calls = frees calls := by
  cases fail with
  | no_extent => rfl
  | no_left => rfl
  | no_right => rfl

/-- A page inside its extent is removed with the three allocations only. -/
lemma Removed.allocated (rem : Removed p n ok root root' calls) (inside : strictly_inside root.inorder p) :
    split_allocates ok := by
  obtain ⟨en, mem, lt, gt⟩ := inside
  -- the extent that covers the page is the one it lies inside of
  have same : ∀ {A B : List ExtentNode} {e : ExtentNode}, root.inorder = A ++ e :: B →
      Covering p A e B → en = e := by
    intro A B e h cov
    have hs := cov.start
    have he := cov.ending
    rcases cov.clear (h ▸ mem) with below | eq | above
    · omega
    · exact eq
    · omega
  cases rem with
  | last h cov one =>
    have hs := cov.start
    rw [same h cov] at lt gt
    omega
  | start h cov s =>
    rw [same h cov] at lt
    omega
  | ending h cov t =>
    rw [same h cov] at gt
    omega
  | middle ok0 ok1 ok2 => exact ⟨ok0, ok1, ok2⟩

end Outcomes

/-- For a well-formed table, every page and every outcome of the allocations, a removal reports `-EINVAL`
exactly if no extent covers the page, and `-ENOMEM` exactly if the page lies strictly inside an extent and
one of the three allocations fails. With either code the table is as it was and what was allocated has
been freed. Otherwise it returns 0, and exactly the page is no longer covered. -/
theorem remove_reports (rb : Rebalance ExtentNode) (pt : ExtentPagetable) (wf : Wf pt.root.inorder)
    (p : ulong) (m : Machine) :
    ∃ ret pt' calls, extent_rb_remove_page rb pt p m = ((ret, pt'), m.after calls) ∧
      (ret = -EINVAL ↔ p ∉ pages pt.root.inorder) ∧
      (ret = -ENOMEM ↔ strictly_inside pt.root.inorder p ∧ ¬split_allocates m.kmalloc_ok) ∧
      (ret = -EINVAL ∨ ret = -ENOMEM → pt' = pt ∧ allocs calls = frees calls) ∧
      (¬(ret = -EINVAL ∨ ret = -ENOMEM) → ret = 0 ∧ p ∉ pages pt'.root.inorder ∧
        ∀ q, q ≠ p → (q ∈ pages pt'.root.inorder ↔ q ∈ pages pt.root.inorder)) := by
  by_cases hp : p ∈ pages pt.root.inorder
  · obtain ⟨root, ret, calls, run, ⟨rem, rfl⟩ | ⟨fail, rfl, rfl⟩⟩ := remove_cases rb m wf hp
    · refine ⟨0, ⟨root⟩, locked calls, run, ?_, ?_, ?_, fun _ => ⟨rfl, ?_, fun q ne => ?_⟩⟩
      · exact iff_of_false (by decide) (not_not.mpr hp)
      · exact iff_of_false (by decide) fun h => h.2 (rem.allocated h.1)
      · exact fun h => absurd h (by decide)
      · simp [rem.pages]
      · simp [rem.pages, ne]
    · refine ⟨-ENOMEM, ⟨pt.root⟩, locked calls, run, ?_, ?_, fun _ => ⟨rfl, ?_⟩, ?_⟩
      · exact iff_of_false (by decide) (not_not.mpr hp)
      · exact iff_of_true rfl ⟨fail.inside, fail.unallocated⟩
      · rw [allocs_locked, frees_locked, fail.conserves]
      · exact fun h => (h (.inr rfl)).elim
  · refine ⟨-EINVAL, pt, locked [], remove_absent rb m hp, ?_, ?_, fun _ => ⟨rfl, rfl⟩, ?_⟩
    · exact iff_of_true rfl hp
    · exact iff_of_false (by decide) fun h => hp (covered_of_inside h.1)
    · exact fun h => (h (.inl rfl)).elim

/-- The table with the one extent `{5, 7}`. -/
def five_to_seven : ExtentPagetable := ⟨.node .black .nil ⟨1, 0, [⟨2, 5⟩, ⟨3, 6⟩, ⟨4, 7⟩], 3, 5, 7⟩ .nil⟩

/-- The table of the extent 5 to 7 is well formed. -/
lemma five_to_seven_wf : Wf five_to_seven.root.inorder where
  canonical := .singleton (by decide)
  counts := by decide
  addrs := by decide

/-- The page 6 stays when the second allocation fails. -/
theorem remove_reports_no_node :
    (extent_rb_remove_page .plain five_to_seven 6 (.boot (· < 1))).1 = (-ENOMEM, five_to_seven) := by
  obtain ⟨ret, pt, calls, run, _, nomem, failed, _⟩ :=
    remove_reports .plain five_to_seven five_to_seven_wf 6 (.boot (· < 1))
  have code : ret = -ENOMEM := by
    refine nomem.mpr ⟨⟨⟨1, 0, [⟨2, 5⟩, ⟨3, 6⟩, ⟨4, 7⟩], 3, 5, 7⟩, by decide, by decide⟩, fun h => ?_⟩
    exact absurd h.2.1 (by decide)
  rw [run, code, (failed (.inr code)).1]

end CS519.Extents
