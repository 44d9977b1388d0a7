import CS519.Extents.Refine

/-!
# The report depends on the tracked pages only

A well-formed table is determined, up to the shape of the tree and the identity of its objects, by the
pages it covers: the maximal runs of a set are unique. So two histories that track the same pages end
with the same report, whatever the order of their calls (`extent_table_canonical`), and so do two
interleavings of threads that work on pages of their own.
-/

namespace CS519.Extents
open Runs ExtentNode

/-- What `extent_rb_print` reports of each extent. -/
def report (l : List ExtentNode) : List (ulong × ulong × Int) :=
  l.map fun en => (en.ex.starting_phys_addr, en.ex.ending_phys_addr, en.ex.pgcount)

section Report
variable {l m : List ExtentNode}

/-- The numbers that extents cover are those of their pages. -/
lemma mem_cover_iff_page {x : ℕ} : x ∈ cover lo hi l ↔ ∃ p ∈ pages l, p.toNat = x := by
  constructor
  · intro hx
    obtain ⟨en, _, _, le⟩ := mem_cover.mp hx
    have same : (BitVec.ofNat 64 x).toNat = x := by
      rw [BitVec.toNat_ofNat, Nat.mod_eq_of_lt (le.trans_lt en.ex.ending_phys_addr.isLt)]
    refine ⟨BitVec.ofNat 64 x, ?_, same⟩
    rw [mem_pages, same]
    exact hx
  · rintro ⟨p, hp, rfl⟩
    exact mem_pages.mp hp

/-- Lists with the same pages cover the same numbers. -/
lemma cover_of_pages (e : pages l = pages m) : cover lo hi l = cover lo hi m := by
  ext x
  rw [mem_cover_iff_page, mem_cover_iff_page, e]

/-- The report of a well-formed table is a function of the bounds. -/
lemma Wf.report_eq (wf : Wf l) :
    report l = (l.map fun en => (en.lo, en.hi)).map fun b =>
      (BitVec.ofNat 64 b.1, BitVec.ofNat 64 b.2, (b.2 : ℤ) - b.1 + 1) := by
  rw [report, List.map_map]
  apply List.map_congr_left
  intro en mem
  simp [wf.counts en mem, ExtentNode.lo, ExtentNode.hi]

/-- Well-formed tables that cover the same pages have the same report. -/
lemma Wf.report_unique (wl : Wf l) (wm : Wf m) (e : pages l = pages m) : report l = report m := by
  rw [wl.report_eq, wm.report_eq, wl.canonical.unique wm.canonical (cover_of_pages e)]

end Report

section Threads
variable {ι : Type} [DecidableEq ι]

/-- The calls of one thread, in order. -/
def thread (t : ι) (w : List (ι × Op)) : List Op := (w.filter (·.1 = t)).map Prod.snd

/-- The calls about one page, in order. -/
def about (p : ulong) (h : List Op) : List Op := h.filter (·.page = p)

/-- Every page is used by one thread only. -/
def Apart (w : List (ι × Op)) : Prop := ∀ a ∈ w, ∀ b ∈ w, a.2.page = b.2.page → a.1 = b.1

/-- A call leaves the other pages alone. -/
lemma mem_track_of_ne {s : Finset ulong} {op : Op} {p : ulong} (ne : op.page ≠ p) :
    p ∈ track s op ↔ p ∈ s := by
  cases op with
  | insert q => simp [track, (show p ≠ q from fun e => ne e.symm)]
  | remove q => simp [track, (show p ≠ q from fun e => ne e.symm)]

/-- What a call does to a page depends on that page only. -/
lemma mem_track_congr {s s' : Finset ulong} {op : Op} {p : ulong} (same : p ∈ s ↔ p ∈ s') :
    p ∈ track s op ↔ p ∈ track s' op := by
  cases op with
  | insert q => simp [track, same]
  | remove q => simp [track, same]

/-- Whether a page is tracked depends on the calls about it. -/
lemma mem_run_track_about (p : ulong) (h : List Op) :
    ∀ {s t : Finset ulong}, (p ∈ s ↔ p ∈ t) →
      (p ∈ run track s h ↔ p ∈ run track t (about p h)) := by
  induction h with
  | nil => exact id
  | cons op h ih =>
    intro s t same
    by_cases e : op.page = p
    · have cons : about p (op :: h) = op :: about p h := List.filter_cons_of_pos (by simpa using e)
      rw [cons]
      exact ih (mem_track_congr same)
    · have cons : about p (op :: h) = about p h := List.filter_cons_of_neg (by simpa using e)
      rw [cons]
      exact ih ((mem_track_of_ne e).trans same)

/-- Whether the insertions are of untracked pages depends on the calls about each page. -/
lemma always_untracked_about (h : List Op) :
    ∀ {s : Finset ulong} {t : ulong → Finset ulong}, (∀ p, p ∈ s ↔ p ∈ t p) →
      (Always track Op.untracked s h ↔ ∀ p, Always track Op.untracked (t p) (about p h)) := by
  induction h with
  | nil => exact fun _ => ⟨fun _ _ => trivial, fun _ => trivial⟩
  | cons op h ih =>
    intro s t same
    -- only the set kept for the page of the call moves on
    have next : ∀ p, p ∈ track s op ↔
        p ∈ (if op.page = p then track (t p) op else t p : Finset ulong) := by
      intro p
      by_cases e : op.page = p
      · rw [if_pos e]
        exact mem_track_congr (same p)
      · rw [if_neg e]
        exact (mem_track_of_ne e).trans (same p)
    have here : Op.untracked s op ↔ Op.untracked (t op.page) op := by
      cases op with
      | insert q => exact not_congr (same q)
      | remove q => exact Iff.rfl
    have cons : ∀ p, about p (op :: h) = if op.page = p then op :: about p h else about p h := by
      intro p
      by_cases e : op.page = p <;> simp [about, e]
    rw [Always, ih next, here]
    constructor
    · rintro ⟨head, rest⟩ p
      have := rest p
      rw [cons]
      by_cases e : op.page = p
      · rw [if_pos e] at this ⊢
        exact ⟨e ▸ head, this⟩
      · rw [if_neg e] at this ⊢
        exact this
    · intro all
      refine ⟨?_, fun p => ?_⟩
      · have := all op.page
        rw [cons, if_pos rfl] at this
        exact this.1
      · have := all p
        rw [cons] at this
        by_cases e : op.page = p
        · rw [if_pos e] at this ⊢
          exact this.2
        · rw [if_neg e] at this ⊢
          exact this

/-- It can be checked page by page that every insertion is of an untracked page. -/
lemma untracked_about {h : List Op} : Untracked h ↔ ∀ p, Untracked (about p h) :=
  always_untracked_about h (s := ∅) (t := fun _ => ∅) fun _ => Iff.rfl

/-- The calls about a page are those of the thread that uses it. -/
lemma about_thread {w : List (ι × Op)} (apart : Apart w) {a : ι × Op} (mem : a ∈ w) :
    about a.2.page (w.map Prod.snd) = about a.2.page (thread a.1 w) := by
  rw [about, about, thread, List.filter_map, List.filter_map, List.filter_filter]
  refine congrArg _ (List.filter_congr fun b hb => ?_)
  by_cases e : b.2.page = a.2.page
  · simp [e, apart b hb a mem e]
  · simp [e]

/-- Interleavings of the same threads consist of the same calls. -/
lemma mem_interleaving {w w' : List (ι × Op)} (same : ∀ t, thread t w = thread t w') {a : ι × Op}
    (mem : a ∈ w) : a ∈ w' := by
  have h : a.2 ∈ thread a.1 w' := by
    rw [← same, thread]
    exact List.mem_map_of_mem (List.mem_filter.mpr ⟨mem, by simp⟩)
  obtain ⟨b, hb, e⟩ := List.mem_map.mp h
  obtain ⟨hb, t⟩ := List.mem_filter.mp hb
  rwa [← show b = a from Prod.ext (by simpa using t) e]

/-- Threads that keep apart do so in every interleaving of their calls. -/
lemma Apart.interleaving {w w' : List (ι × Op)} (apart : Apart w)
    (same : ∀ t, thread t w = thread t w') : Apart w' := by
  have same' : ∀ t, thread t w' = thread t w := fun t => (same t).symm
  exact fun a ha b hb => apart a (mem_interleaving same' ha) b (mem_interleaving same' hb)

/-- Interleavings of the same threads agree on the calls about each page. -/
lemma about_interleaving {w w' : List (ι × Op)} (apart : Apart w)
    (same : ∀ t, thread t w = thread t w') (p : ulong) :
    about p (w.map Prod.snd) = about p (w'.map Prod.snd) := by
  by_cases used : ∃ a ∈ w, a.2.page = p
  · obtain ⟨a, mem, rfl⟩ := used
    rw [about_thread apart mem, same,
      about_thread (apart.interleaving same) (mem_interleaving same mem)]
  · have unused : ∀ {v : List (ι × Op)}, (∀ a ∈ v, a.2.page ≠ p) → about p (v.map Prod.snd) = [] := by
      intro v ne
      apply List.filter_eq_nil_iff.mpr
      intro op hop
      obtain ⟨a, mem, rfl⟩ := List.mem_map.mp hop
      simpa using ne a mem
    rw [unused fun a mem e => used ⟨a, mem, e⟩, unused]
    intro a mem e
    exact used ⟨a, mem_interleaving (fun t => (same t).symm) mem, e⟩

/-- Threads that each insert untracked pages, on pages of their own, do so together. -/
lemma untracked_interleaving {w : List (ι × Op)} (apart : Apart w)
    (each : ∀ t, Untracked (thread t w)) : Untracked (w.map Prod.snd) := by
  apply untracked_about.mpr
  intro p
  by_cases used : ∃ a ∈ w, a.2.page = p
  · obtain ⟨a, mem, rfl⟩ := used
    rw [about_thread apart mem]
    exact untracked_about.mp (each a.1) a.2.page
  · have nil : about p (w.map Prod.snd) = [] := by
      apply List.filter_eq_nil_iff.mpr
      intro op hop
      obtain ⟨a, mem, rfl⟩ := List.mem_map.mp hop
      simpa using fun e => used ⟨a, mem, e⟩
    rw [nil]
    trivial

/-- The tracked pages depend on the calls about each page only. -/
lemma tracked_congr {h g : List Op} (same : ∀ p, about p h = about p g) : tracked h = tracked g := by
  ext p
  rw [tracked, tracked, mem_run_track_about p h (t := ∅) Iff.rfl,
    mem_run_track_about p g (t := ∅) Iff.rfl, same]

end Threads

/-- The report does not depend on the order of the calls: two histories of the kind that
`extent_table_refines` admits, with the same tracked pages at the end, have the same report, even under
different rebalancing. So do two interleavings of threads with pages of their own. -/
theorem extent_table_canonical (rb rb' : Rebalance ExtentNode) :
    (∀ h h' : List Op, Legal h → Legal h' → tracked h = tracked h' →
      report (World.after rb (fun _ => true) h).nodes =
        report (World.after rb' (fun _ => true) h').nodes) ∧
    ∀ {ι : Type} [DecidableEq ι] (w w' : List (ι × Op)), Apart w →
      (∀ t, thread t w = thread t w') → (∀ t, Untracked (thread t w)) →
      NoWrap (w.map Prod.snd) → NoWrap (w'.map Prod.snd) →
      report (World.after rb (fun _ => true) (w.map Prod.snd)).nodes =
        report (World.after rb' (fun _ => true) (w'.map Prod.snd)).nodes := by
  have unique : ∀ h h' : List Op, Legal h → Legal h' → tracked h = tracked h' →
      report (World.after rb (fun _ => true) h).nodes =
        report (World.after rb' (fun _ => true) h').nodes := by
    intro h h' legal legal' same
    have ref := refines_after rb legal
    have ref' := refines_after rb' legal'
    exact ref.wf.report_unique ref'.wf (by rw [ref.pages, ref'.pages, same])
  refine ⟨unique, fun w w' apart same each nowrap nowrap' => unique _ _ ?_ ?_ ?_⟩
  · exact legal_iff.mpr ⟨untracked_interleaving apart each, nowrap⟩
  · refine legal_iff.mpr ⟨?_, nowrap'⟩
    exact untracked_interleaving (apart.interleaving same) fun t => same t ▸ each t
  · exact tracked_congr (about_interleaving apart same)

/-- A bridge and an extension lead to the same report. -/
theorem extent_table_canonical_bridge :
    report (World.after .plain (fun _ => true) [.insert 5, .insert 7, .insert 6]).nodes =
      report (World.after .plain (fun _ => true) [.insert 5, .insert 6, .insert 7]).nodes :=
  (extent_table_canonical .plain .plain).1 _ _ (by decide) (by decide) (by decide)

/-- Around the end of the address space the order does matter: page 0 is taken for the right neighbour of
the last page when that one comes second, and the last page is not taken for the left neighbour of
page 0. -/
theorem extent_table_not_canonical :
    ¬∀ h h' : List Op, Untracked h → Untracked h' → tracked h = tracked h' →
      report (World.after .plain (fun _ => true) h).nodes =
        report (World.after .plain (fun _ => true) h').nodes := by
  intro canonical
  have same := canonical [.insert 0, .insert (-1)] [.insert (-1), .insert 0] (by decide) (by decide)
    (by decide)
  exact absurd same (by decide)

end CS519.Extents
