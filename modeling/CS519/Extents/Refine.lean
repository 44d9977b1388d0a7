import CS519.Run
import CS519.Extents.Remove

/-!
# The table refines a set of pages

What the extent table is for: it tracks a set of pages (`track`). `Refines` relates the table to that
set: the table is well formed, its extents cover exactly the tracked pages, and no node has an address
that is still to be allocated. Every admitted call preserves it (`step_refines`), hence every history
does (`run_refines`), and with it come the shape of the table after any history
(`extent_table_refines`) and its independence of the order of the calls (`extent_table_canonical`).
-/

namespace CS519.Extents
open Runs ExtentNode

/-- A call of one of the two entry points. -/
inductive Op where
  | insert (p : ulong)
  | remove (p : ulong)
deriving DecidableEq, Repr

/-- A table and the machine around it. -/
structure World where
  pt : ExtentPagetable
  m : Machine

/-- A new table, on a machine where `kmalloc` succeeds as given. -/
def World.start (kmalloc_succeeds : Nat → Bool) : World := ⟨.empty, .boot kmalloc_succeeds⟩

/-- The nodes of the table in order. -/
def World.nodes (w : World) : List ExtentNode := w.pt.root.inorder

/-- Make a call. -/
def World.step (rb : Rebalance ExtentNode) (w : World) : Op → World
  | .insert p =>
    let r := extent_rb_insert_or_add rb w.pt p w.m
    ⟨r.1.2, r.2⟩
  | .remove p =>
    let r := extent_rb_remove_page rb w.pt p w.m
    ⟨r.1.2, r.2⟩

/-- The table after a history, from the empty one. -/
def World.after (rb : Rebalance ExtentNode) (kmalloc_succeeds : Nat → Bool) (h : List Op) : World :=
  run (World.step rb) (World.start kmalloc_succeeds) h

/-- The page a call is about. -/
def Op.page : Op → ulong
  | .insert p => p
  | .remove p => p

/-- The same call on a set of pages. -/
def track (s : Finset ulong) : Op → Finset ulong
  | .insert p => insert p s
  | .remove p => s.erase p

/-- The pages inserted and not removed since. -/
def tracked (h : List Op) : Finset ulong := run track ∅ h

/-- The call does not insert a page that is tracked already. -/
def Op.untracked (s : Finset ulong) : Op → Prop
  | .insert p => p ∉ s
  | .remove _ => True

/-- The call does not insert the last page of the address space while page 0 is tracked, so that `p + 1`
does not wrap onto a tracked page. -/
def Op.nowrap (s : Finset ulong) : Op → Prop
  | .insert p => p + 1 = 0 → (0 : ulong) ∉ s
  | .remove _ => True

instance (s : Finset ulong) : ∀ op, Decidable (Op.untracked s op)
  | .insert p => inferInstanceAs (Decidable (p ∉ s))
  | .remove _ => inferInstanceAs (Decidable True)

instance (s : Finset ulong) : ∀ op, Decidable (Op.nowrap s op)
  | .insert p => inferInstanceAs (Decidable (p + 1 = 0 → (0 : ulong) ∉ s))
  | .remove _ => inferInstanceAs (Decidable True)

/-- Every insertion of a history is of an untracked page. -/
def Untracked (h : List Op) : Prop := Always track Op.untracked ∅ h

/-- No insertion of a history wraps. -/
def NoWrap (h : List Op) : Prop := Always track Op.nowrap ∅ h

/-- Every insertion of a history is of an untracked page, and none wraps. -/
def Legal (h : List Op) : Prop := Always track (fun s op => op.untracked s ∧ op.nowrap s) ∅ h

instance (h : List Op) : Decidable (Untracked h) := inferInstanceAs (Decidable (Always _ _ _ _))

instance (h : List Op) : Decidable (NoWrap h) := inferInstanceAs (Decidable (Always _ _ _ _))

instance (h : List Op) : Decidable (Legal h) := inferInstanceAs (Decidable (Always _ _ _ _))

/-- A legal history inserts untracked pages only, and never across the wrap. -/
lemma legal_iff {h : List Op} : Legal h ↔ Untracked h ∧ NoWrap h := always_and

section Patch
variable {A O N B : List ExtentNode} {x : ulong} {s : Finset ulong}

/-- The pages of two parts of a table. -/
lemma mem_pages_append : x ∈ pages (A ++ B) ↔ x ∈ pages A ∨ x ∈ pages B := by
  simp only [mem_pages, mem_cover_append]

/-- The pages of a table with one extent more. -/
lemma mem_pages_cons {en : ExtentNode} :
    x ∈ pages (en :: B) ↔ (en.lo ≤ x.toNat ∧ x.toNat ≤ en.hi) ∨ x ∈ pages B := by
  simp only [mem_pages, mem_cover_cons]

/-- The empty table has no pages. -/
@[simp] lemma pages_nil : pages [] = ∅ := by
  ext x
  simp [mem_pages]

/-- The pages of one extent. -/
lemma mem_pages_singleton {en : ExtentNode} : x ∈ pages [en] ↔ en.lo ≤ x.toNat ∧ x.toNat ≤ en.hi := by
  simp [mem_pages_cons]

/-- The pages of two extents. -/
lemma mem_pages_pair {en fn : ExtentNode} :
    x ∈ pages [en, fn] ↔ (en.lo ≤ x.toNat ∧ x.toNat ≤ en.hi) ∨ fn.lo ≤ x.toNat ∧ x.toNat ≤ fn.hi := by
  simp [mem_pages_cons]

/-- Adding to the middle adds to the whole. -/
lemma mem_pages_add {q : Prop} (h : x ∈ pages N ↔ q ∨ x ∈ pages O) :
    x ∈ pages (A ++ N ++ B) ↔ q ∨ x ∈ pages (A ++ O ++ B) := by
  simp only [mem_pages_append, h]
  tauto

/-- Taking away from the middle takes away from the whole, if neither side had it. -/
lemma mem_pages_sub {q : Prop} (h : x ∈ pages N ↔ x ∈ pages O ∧ ¬q) (hA : q → x ∉ pages A)
    (hB : q → x ∉ pages B) : x ∈ pages (A ++ N ++ B) ↔ x ∈ pages (A ++ O ++ B) ∧ ¬q := by
  simp only [mem_pages_append, h]
  tauto

/-- The middle of a well-formed sequence may be exchanged for nodes that keep clear of both sides. -/
lemma Wf.replace (wf : Wf (A ++ O ++ B)) (canonical : Canonical lo hi N)
    (counts : ∀ en ∈ N, en.ex.pgcount = (en.hi : ℤ) - en.lo + 1)
    (below : ∀ a ∈ A, ∀ n ∈ N, a.hi + 1 < n.lo) (above : ∀ n ∈ N, ∀ b ∈ B, n.hi + 1 < b.lo)
    (nodup : (N.map ExtentNode.addr).Nodup)
    (new : ∀ n ∈ N, ∀ x ∈ A ++ B, x.addr ≠ n.addr) : Wf (A ++ N ++ B) := by
  refine ⟨wf.canonical.replace canonical below above, fun en mem => ?_, ?_⟩
  · cases List.mem_append.mp mem with
    | inl mem =>
      cases List.mem_append.mp mem with
      | inl mem => exact wf.counts en (by simp [mem])
      | inr mem => exact counts en mem
    | inr mem => exact wf.counts en (by simp [mem])
  · have nd : ((A ++ B).map ExtentNode.addr).Nodup := by
      refine wf.addrs.sublist (List.Sublist.map _ ?_)
      rw [List.append_assoc]
      exact (List.sublist_append_right O B).append_left A
    simp only [List.map_append] at nd ⊢
    have perm : (A.map addr ++ N.map addr ++ B.map addr).Perm
        (N.map addr ++ (A.map addr ++ B.map addr)) := by
      rw [← List.append_assoc]
      exact (List.perm_append_comm).append_right _
    rw [perm.nodup_iff]
    refine List.nodup_append.mpr ⟨nodup, nd, fun a ha b hb => ?_⟩
    obtain ⟨n, hn, rfl⟩ := List.mem_map.mp ha
    rw [← List.map_append] at hb
    obtain ⟨y, hy, rfl⟩ := List.mem_map.mp hb
    exact (new n hn y hy).symm

/-- The middle of a well-formed sequence may be exchanged for one node. -/
lemma Wf.replace_one {y : ExtentNode} (wf : Wf (A ++ O ++ B)) (le : y.lo ≤ y.hi)
    (count : y.ex.pgcount = (y.hi : ℤ) - y.lo + 1) (below : ∀ a ∈ A, a.hi + 1 < y.lo)
    (above : ∀ b ∈ B, y.hi + 1 < b.lo) (new : ∀ x ∈ A ++ B, x.addr ≠ y.addr) :
    Wf (A ++ y :: B) := by
  have h := wf.replace (N := [y]) (.singleton le) (by simpa using count) (by simpa using below)
    (by simpa using above) (by simp) (by simpa using new)
  simpa using h

/-- The middle of a well-formed sequence may be exchanged for two nodes, one after the other. -/
lemma Wf.replace_two {y z : ExtentNode} (wf : Wf (A ++ O ++ B)) (le_y : y.lo ≤ y.hi) (le_z : z.lo ≤ z.hi)
    (gap : y.hi + 1 < z.lo) (count_y : y.ex.pgcount = (y.hi : ℤ) - y.lo + 1)
    (count_z : z.ex.pgcount = (z.hi : ℤ) - z.lo + 1) (below : ∀ a ∈ A, a.hi + 1 < y.lo)
    (above : ∀ b ∈ B, z.hi + 1 < b.lo) (ne : y.addr ≠ z.addr)
    (new : ∀ x ∈ A ++ B, x.addr ≠ y.addr ∧ x.addr ≠ z.addr) : Wf (A ++ y :: z :: B) := by
  have both : ∀ {P : ExtentNode → Prop}, P y → P z → ∀ n ∈ [y, z], P n := by
    intro P py pz n mem
    rcases List.mem_pair.mp mem with rfl | rfl
    · exact py
    · exact pz
  have h := wf.replace (N := [y, z]) (.pair le_y le_z gap) (both count_y count_z)
    (fun a ha => both (below a ha) (by have := below a ha; omega))
    (both (fun b hb => by have := above b hb; omega) above) (by simp [ne])
    (both (fun x hx => (new x hx).1) fun x hx => (new x hx).2)
  simpa using h

/-- The nodes around a replaced one have other addresses. -/
lemma Wf.addr_ne {en : ExtentNode} (wf : Wf (A ++ en :: B)) : ∀ x ∈ A ++ B, x.addr ≠ en.addr := by
  obtain ⟨neA, neB⟩ := addr_ne_of_nodup wf.addrs
  intro x mem
  cases List.mem_append.mp mem with
  | inl mem => exact neA x mem
  | inr mem => exact neB x mem

end Patch

section Steps
variable {p : ulong} {n : Nat} {ok : Nat → Bool} {root root' : Tree ExtentNode} {calls : List Event}

/-- A successful insertion keeps the table well formed. -/
lemma Inserted.wf (ins : Inserted p n ok root root' calls) (wf : Wf root.inorder)
    (fresh : ∀ en ∈ root.inorder, en.addr < n) : Wf root'.inorder := by
  cases ins with
  | @new A B _ _ _ e loc e' =>
    rw [e] at wf fresh
    rw [e']
    refine Wf.replace_one (O := []) (by simpa using wf) le_rfl ?_ loc.below loc.above ?_
    · simp [ExtentNode.lo, ExtentNode.hi]
    · intro x hx
      have := fresh x hx
      simp only
      omega
  | @left A l B _ e loc e' =>
    rw [e] at wf
    rw [e']
    have le := wf.canonical.proper l (by simp)
    have cnt := wf.counts l (by simp)
    have hl := loc.left l rfl
    obtain ⟨_, _, cross⟩ := canonical_append.mp wf.canonical
    simp only [ExtentNode.lo, ExtentNode.hi] at le cnt hl
    refine Wf.replace_one (O := [l]) (by simpa using wf) ?_ ?_ (fun a ha => cross a ha l (by simp))
      loc.above wf.addr_ne
    · simp only [ExtentNode.lo, ExtentNode.hi, Extent.grow_end]
      omega
    · simp only [ExtentNode.lo, ExtentNode.hi, Extent.grow_end]
      omega
  | @right A r B _ e loc e' =>
    rw [e] at wf
    rw [e']
    have le := wf.canonical.proper r (by simp)
    have cnt := wf.counts r (by simp)
    have hr := loc.right r rfl
    obtain ⟨_, cB, _⟩ := canonical_append.mp wf.canonical
    simp only [ExtentNode.lo, ExtentNode.hi] at le cnt hr
    refine Wf.replace_one (O := [r]) (by simpa using wf) ?_ ?_ loc.below cB.head.2 wf.addr_ne
    · simp only [ExtentNode.lo, ExtentNode.hi, Extent.grow_start]
      omega
    · simp only [ExtentNode.lo, ExtentNode.hi, Extent.grow_start]
      omega
  | @between A l r B _ e loc e' =>
    rw [e] at wf
    rw [e']
    have lel := wf.canonical.proper l (by simp)
    have ler := wf.canonical.proper r (by simp)
    have cl := wf.counts l (by simp)
    have cr := wf.counts r (by simp)
    have hl := loc.left l rfl
    have hr := loc.right r rfl
    obtain ⟨_, cB, cross⟩ := canonical_append.mp wf.canonical
    simp only [ExtentNode.lo, ExtentNode.hi] at lel ler cl cr hl hr
    refine Wf.replace_one (O := [l, r]) (by simpa using wf) ?_ ?_
      (fun a ha => cross a ha l (by simp)) cB.tail.head.2 fun x hx => wf.addr_ne x ?_
    · simp only [ExtentNode.lo, ExtentNode.hi, Extent.grow_end, Extent.absorb]
      omega
    · simp only [ExtentNode.lo, ExtentNode.hi, Extent.grow_end, Extent.absorb]
      omega
    · cases List.mem_append.mp hx with
      | inl hx => simp [hx]
      | inr hx => simp [hx]

/-- A successful insertion adds the page to the covered ones. -/
lemma Inserted.pages (ins : Inserted p n ok root root' calls) (wf : Wf root.inorder) :
    pages root'.inorder = insert p (pages root.inorder) := by
  ext x
  rw [Set.mem_insert_iff, ← BitVec.toNat_inj]
  cases ins with
  | @new A B _ _ _ e loc e' =>
    have e0 : A ++ B = A ++ [] ++ B := by simp
    rw [e, e', List.append_cons, e0]
    apply mem_pages_add
    rw [mem_pages_singleton, pages_nil]
    simp only [ExtentNode.lo, ExtentNode.hi, Extent.single, Set.mem_empty_iff_false, or_false]
    omega
  | @left A l B _ e loc e' =>
    have le := wf.canonical.proper l (by simp [e])
    have hl := loc.left l rfl
    rw [e, e', List.append_cons, List.append_cons A l]
    apply mem_pages_add
    rw [mem_pages_singleton, mem_pages_singleton]
    simp only [ExtentNode.lo, ExtentNode.hi, Extent.grow_end] at le hl ⊢
    omega
  | @right A r B _ e loc e' =>
    have le := wf.canonical.proper r (by simp [e])
    have hr := loc.right r rfl
    rw [e, e', List.append_cons, List.append_cons A r]
    apply mem_pages_add
    rw [mem_pages_singleton, mem_pages_singleton]
    simp only [ExtentNode.lo, ExtentNode.hi, Extent.grow_start] at le hr ⊢
    omega
  | @between A l r B _ e loc e' =>
    have lel := wf.canonical.proper l (by simp [e])
    have ler := wf.canonical.proper r (by simp [e])
    have hl := loc.left l rfl
    have hr := loc.right r rfl
    have e2 : A ++ l :: r :: B = A ++ [l, r] ++ B := by simp
    rw [e, e', List.append_cons, e2]
    apply mem_pages_add
    rw [mem_pages_singleton, mem_pages_pair]
    simp only [ExtentNode.lo, ExtentNode.hi, Extent.grow_end, Extent.absorb] at lel ler hl hr ⊢
    omega

/-- A removal keeps the table well formed. -/
lemma Removed.wf (rem : Removed p n ok root root' calls) (wf : Wf root.inorder)
    (fresh : ∀ en ∈ root.inorder, en.addr < n) : Wf root'.inorder := by
  cases rem with
  | @last A en B e cov _ e' =>
    rw [e, List.append_cons] at wf
    rw [e', ← List.append_nil A]
    exact wf.replace .nil (by simp) (by simp) (by simp) (by simp) (by simp)
  | @start A en B e cov s lt e' =>
    rw [e] at wf
    rw [e']
    have cnt := wf.counts en (by simp)
    obtain ⟨lo', hi'⟩ := drop_start_bounds (p := p) lt
    refine Wf.replace_one (O := [en]) (by simpa using wf) (by omega) ?_ (fun a ha => ?_) ?_ wf.addr_ne
    · rw [lo', hi', Extent.drop_start_pgcount, cnt]
      omega
    · have := cov.below a ha
      omega
    · rw [hi']
      exact cov.above
  | @ending A en B e cov t lt e' =>
    rw [e] at wf
    rw [e']
    have cnt := wf.counts en (by simp)
    obtain ⟨lo', hi'⟩ := drop_end_bounds (p := p) lt
    refine Wf.replace_one (O := [en]) (by simpa using wf) (by omega) ?_ ?_ (fun b hb => ?_) wf.addr_ne
    · rw [lo', Extent.drop_end_pgcount, cnt]
      omega
    · rw [lo']
      exact cov.below
    · have := cov.above b hb
      omega
  | @middle A en B _ _ _ e cov s t e' =>
    rw [e] at wf fresh
    rw [e']
    obtain ⟨lo₁, hi₁, count₁⟩ := left_half_bounds (n + 1) s
    obtain ⟨lo₂, hi₂, count₂⟩ := right_half_bounds (n + 2) n t
    refine Wf.replace_two (O := [en]) (by simpa using wf) (by omega) (by omega) (by omega) ?_ ?_ ?_ ?_
      (by simp) fun x hx => ?_
    · rw [count₁]
      omega
    · rw [count₂]
      omega
    · rw [lo₁]
      exact cov.below
    · rw [hi₂]
      exact cov.above
    · have := fresh x (by rcases List.mem_append.mp hx with hx | hx <;> simp [hx])
      constructor
      · simp only
        omega
      · simp only
        omega

/-- A removal takes the page out of the covered ones. -/
lemma Removed.pages (rem : Removed p n ok root root' calls) :
    pages root'.inorder = pages root.inorder \ {p} := by
  ext x
  rw [Set.mem_sdiff, Set.mem_singleton_iff, ← BitVec.toNat_inj]
  -- the page is covered by its extent only
  have onlyA : ∀ {A en B}, Covering p A en B → x.toNat = p.toNat → x ∉ Extents.pages A := by
    rintro A en B cov h ⟨a, ha, c⟩
    have c' := (contains_iff.mp c).2
    have hs := cov.start
    have := cov.below a ha
    simp only [ExtentNode.hi] at this
    omega
  have onlyB : ∀ {A en B}, Covering p A en B → x.toNat = p.toNat → x ∉ Extents.pages B := by
    rintro A en B cov h ⟨b, hb, c⟩
    have c' := (contains_iff.mp c).1
    have he := cov.ending
    have := cov.above b hb
    simp only [ExtentNode.lo] at this
    omega
  cases rem with
  | @last A en B e cov s e' =>
    have hs := cov.start
    have he := cov.ending
    have e0 : A ++ B = A ++ [] ++ B := by simp
    rw [e, e', List.append_cons, e0]
    refine mem_pages_sub ?_ (onlyA cov) (onlyB cov)
    rw [mem_pages_singleton, pages_nil, Set.mem_empty_iff_false, false_iff]
    omega
  | @start A en B e cov s lt e' =>
    rw [e, e', List.append_cons, List.append_cons A en]
    refine mem_pages_sub ?_ (onlyA cov) (onlyB cov)
    obtain ⟨lo', hi'⟩ := drop_start_bounds (p := p) lt
    rw [mem_pages_singleton, mem_pages_singleton, lo', hi']
    omega
  | @ending A en B e cov t lt e' =>
    rw [e, e', List.append_cons, List.append_cons A en]
    refine mem_pages_sub ?_ (onlyA cov) (onlyB cov)
    obtain ⟨lo', hi'⟩ := drop_end_bounds (p := p) lt
    rw [mem_pages_singleton, mem_pages_singleton, lo']
    omega
  | @middle A en B _ _ _ e cov s t e' =>
    have e2 : ∀ l r : ExtentNode, A ++ l :: r :: B = A ++ [l, r] ++ B := by simp
    rw [e, e', e2, List.append_cons A en]
    refine mem_pages_sub ?_ (onlyA cov) (onlyB cov)
    obtain ⟨lo₁, hi₁, _⟩ := left_half_bounds (n + 1) s
    obtain ⟨lo₂, hi₂, _⟩ := right_half_bounds (n + 2) n t
    rw [mem_pages_singleton, mem_pages_pair, lo₁, lo₂, hi₂]
    omega

/-- Where every allocation succeeds, no insertion fails. -/
lemma InsertFailed.elim {ret : Int} (all : ∀ k, ok k = true)
    (fail : InsertFailed p n ok root root' ret calls) : False := by
  cases fail with
  | no_extent h => simp [all] at h
  | no_node _ h => simp [all] at h
  | no_page _ _ h => simp [all] at h
  | adjacent h => simp [all] at h
  | between h => simp [all] at h

/-- Where every allocation succeeds, no removal fails. -/
lemma RemoveFailed.elim (all : ∀ k, ok k = true) (fail : RemoveFailed p n ok root calls) : False := by
  cases fail with
  | no_extent h => simp [all] at h
  | no_left _ h => simp [all] at h
  | no_right _ _ h => simp [all] at h

/-- A node that takes the place of another one keeps the addresses in use. -/
lemma addr_of_mem {A B : List ExtentNode} {y l en : ExtentNode} (mem : en ∈ A ++ y :: B)
    (same : y.addr = l.addr) : ∃ x ∈ A ++ l :: B, x.addr = en.addr := by
  cases List.mem_append.mp mem with
  | inl mem => exact ⟨en, by simp [mem], rfl⟩
  | inr mem =>
    rcases List.mem_cons.mp mem with rfl | mem
    · exact ⟨l, by simp, same.symm⟩
    · exact ⟨en, by simp [mem], rfl⟩

/-- An address that was in use is below those allocated by now. -/
lemma addr_lt_of_old {l : List ExtentNode} {en : ExtentNode} (fresh : ∀ x ∈ l, x.addr < n)
    (calls : List Event) (old : ∃ x ∈ l, x.addr = en.addr) :
    en.addr < n + calls.countP Event.is_kmalloc := by
  obtain ⟨x, mem, same⟩ := old
  have := fresh x mem
  omega

/-- The nodes after an insertion have addresses that are allocated by then. -/
lemma Inserted.fresh (ins : Inserted p n ok root root' calls)
    (fresh : ∀ en ∈ root.inorder, en.addr < n) :
    ∀ en ∈ root'.inorder, en.addr < n + calls.countP Event.is_kmalloc := by
  intro en mem
  have old : (∃ x ∈ root.inorder, x.addr = en.addr) → _ := addr_lt_of_old fresh calls
  cases ins with
  | @new A B _ _ _ e loc e' =>
    rw [e'] at mem
    cases List.mem_append.mp mem with
    | inl mem => exact old ⟨en, by simp [e, mem], rfl⟩
    | inr mem =>
      rcases List.mem_cons.mp mem with rfl | mem
      · simp [extent_alloc, node_alloc, page_alloc]
      · exact old ⟨en, by simp [e, mem], rfl⟩
  | @left A l B _ e loc e' =>
    rw [e'] at mem
    obtain ⟨x, hx, same⟩ := addr_of_mem (l := l) mem rfl
    exact old ⟨x, e ▸ hx, same⟩
  | @right A r B _ e loc e' =>
    rw [e'] at mem
    obtain ⟨x, hx, same⟩ := addr_of_mem (l := r) mem rfl
    exact old ⟨x, e ▸ hx, same⟩
  | @between A l r B _ e loc e' =>
    rw [e'] at mem
    obtain ⟨x, hx, same⟩ := addr_of_mem (l := l) mem rfl
    refine old ⟨x, ?_, same⟩
    rw [e]
    cases List.mem_append.mp hx with
    | inl hx => simp [hx]
    | inr hx =>
      rcases List.mem_cons.mp hx with rfl | hx
      · simp
      · simp [hx]

/-- The nodes after a removal have addresses that are allocated by then. -/
lemma Removed.fresh (rem : Removed p n ok root root' calls)
    (fresh : ∀ en ∈ root.inorder, en.addr < n) :
    ∀ en ∈ root'.inorder, en.addr < n + calls.countP Event.is_kmalloc := by
  intro en mem
  have old : (∃ x ∈ root.inorder, x.addr = en.addr) → _ := addr_lt_of_old fresh calls
  cases rem with
  | @last A e B h cov _ h' =>
    rw [h'] at mem
    cases List.mem_append.mp mem with
    | inl mem => exact old ⟨en, by simp [h, mem], rfl⟩
    | inr mem => exact old ⟨en, by simp [h, mem], rfl⟩
  | @start A e B h cov _ _ h' =>
    rw [h'] at mem
    obtain ⟨x, hx, same⟩ := addr_of_mem (l := e) mem rfl
    exact old ⟨x, h ▸ hx, same⟩
  | @ending A e B h cov _ _ h' =>
    rw [h'] at mem
    obtain ⟨x, hx, same⟩ := addr_of_mem (l := e) mem rfl
    exact old ⟨x, h ▸ hx, same⟩
  | @middle A e B _ _ _ h cov _ _ h' =>
    rw [h'] at mem
    cases List.mem_append.mp mem with
    | inl mem => exact old ⟨en, by simp [h, mem], rfl⟩
    | inr mem =>
      simp only [List.mem_cons] at mem
      rcases mem with rfl | rfl | mem
      · simp [extent_alloc, node_alloc]
      · simp [extent_alloc, node_alloc]
      · exact old ⟨en, by simp [h, mem], rfl⟩

end Steps

/-- The relation between a table and the set it tracks. -/
structure Refines (w : World) (s : Finset ulong) : Prop where
  wf : Wf w.nodes
  pages : pages w.nodes = s
  fresh : ∀ en ∈ w.nodes, en.addr < w.m.kmallocs
  succeeds : ∀ k, w.m.kmalloc_succeeds k = true

section Refinement
variable (rb : Rebalance ExtentNode)

/-- The empty table tracks nothing. -/
lemma Refines.start : Refines (World.start fun _ => true) ∅ where
  wf := .nil
  pages := by simp [World.start, World.nodes, ExtentPagetable.empty]
  fresh := by simp [World.start, World.nodes, ExtentPagetable.empty]
  succeeds _ := rfl

/-- The pages of the table are the tracked ones. -/
lemma Refines.mem {w : World} {s : Finset ulong} (ref : Refines w s) (p : ulong) :
    p ∈ Extents.pages w.nodes ↔ p ∈ s := by
  rw [ref.pages, Finset.mem_coe]

/-- No allocation fails. -/
lemma Refines.kmalloc_ok {w : World} {s : Finset ulong} (ref : Refines w s) (k : Nat) :
    w.m.kmalloc_ok k = true :=
  ref.succeeds _

/-- An admitted insertion succeeds. -/
lemma Refines.inserted {w : World} {s : Finset ulong} (ref : Refines w s) {p : ulong}
    (np : p ∉ s) (nowrap : p + 1 = 0 → (0 : ulong) ∉ s) :
    ∃ root calls, extent_rb_insert_or_add rb w.pt p w.m = ((0, ⟨root⟩), w.m.after (locked calls)) ∧
      Inserted p w.m.kmallocs w.m.kmalloc_ok w.pt.root root calls := by
  obtain ⟨root, ret, calls, run, ⟨ins, rfl⟩ | fail⟩ := insert_cases rb w.m ref.wf
    (mt (ref.mem p).mp np) fun h => mt (ref.mem 0).mp (nowrap h)
  · exact ⟨root, calls, run, ins⟩
  · exact (fail.elim ref.kmalloc_ok).elim

/-- The removal of a tracked page succeeds. -/
lemma Refines.removed {w : World} {s : Finset ulong} (ref : Refines w s) {p : ulong} (hp : p ∈ s) :
    ∃ root calls, extent_rb_remove_page rb w.pt p w.m = ((0, ⟨root⟩), w.m.after (locked calls)) ∧
      Removed p w.m.kmallocs w.m.kmalloc_ok w.pt.root root calls := by
  obtain ⟨root, ret, calls, run, ⟨rem, rfl⟩ | ⟨fail, _⟩⟩ :=
    remove_cases rb w.m ref.wf ((ref.mem p).mpr hp)
  · exact ⟨root, calls, run, rem⟩
  · exact (fail.elim ref.kmalloc_ok).elim

/-- An admitted call does to the tracked set what it should. -/
theorem step_refines {w : World} {s : Finset ulong} {op : Op}
    (admitted : op.untracked s ∧ op.nowrap s) (ref : Refines w s) :
    Refines (w.step rb op) (track s op) := by
  obtain ⟨untracked, nowrap⟩ := admitted
  cases op with
  | insert p =>
    obtain ⟨root, calls, run, ins⟩ := ref.inserted rb untracked nowrap
    simp only [World.step, run]
    refine ⟨ins.wf ref.wf ref.fresh, ?_, ?_, ref.succeeds⟩
    · simp only [World.nodes, ins.pages ref.wf, track, Finset.coe_insert]
      rw [← ref.pages]
      rfl
    · simpa [World.nodes] using ins.fresh ref.fresh
  | remove p =>
    by_cases hp : p ∈ s
    · obtain ⟨root, calls, run, rem⟩ := ref.removed rb hp
      simp only [World.step, run]
      refine ⟨rem.wf ref.wf ref.fresh, ?_, ?_, ref.succeeds⟩
      · simp only [World.nodes, rem.pages, track, Finset.coe_erase]
        rw [← ref.pages]
        rfl
      · simpa [World.nodes] using rem.fresh ref.fresh
    · have absent := remove_absent rb w.m (mt (ref.mem p).mp hp)
      simp only [World.step, absent]
      refine ⟨ref.wf, ?_, ?_, ref.succeeds⟩
      · rw [track, Finset.erase_eq_of_notMem hp]
        exact ref.pages
      · simpa [World.nodes] using ref.fresh

/-- A table follows its tracked set through every legal history. -/
theorem refines_after {h : List Op} (legal : Legal h) :
    Refines (World.after rb (fun _ => true) h) (tracked h) := by
  have step : ∀ (w : World) (s : Finset ulong) (op : Op), op.untracked s ∧ op.nowrap s →
      Refines w s → Refines (w.step rb op) (track s op) := fun _ _ _ => step_refines rb
  exact run_refines step Refines.start legal

end Refinement

/-- From the empty table, after any calls that insert untracked pages and remove any pages, where every
allocation succeeds and no `p + 1` wraps onto a tracked page: the extents are in ascending order, their
bounds and counts agree, they neither overlap nor touch and are maximal runs, and they cover the pages
inserted and not removed since. -/
theorem extent_table_refines (rb : Rebalance ExtentNode) (h : List Op) (legal : Legal h) :
    let nodes := (World.after rb (fun _ => true) h).nodes
    nodes.Pairwise (fun a b => a.ex.starting_phys_addr < b.ex.starting_phys_addr) ∧
    (∀ en ∈ nodes, en.ex.starting_phys_addr ≤ en.ex.ending_phys_addr ∧
      en.ex.pgcount = (en.hi : ℤ) - en.lo + 1) ∧
    nodes.Pairwise (fun a b =>
      (∀ p, ¬(extent_pte_contains a.ex p ∧ extent_pte_contains b.ex p)) ∧
        a.hi + 1 ≠ b.lo ∧ b.hi + 1 ≠ a.lo) ∧
    (∀ en ∈ nodes, ∀ p ∈ tracked h, p.toNat + 1 ≠ en.lo ∧ p.toNat ≠ en.hi + 1) ∧
    pages nodes = tracked h := by
  intro nodes
  obtain ⟨wf, covered, _, _⟩ := refines_after rb legal
  refine ⟨?_, fun en mem => ⟨?_, wf.counts en mem⟩, ?_, fun en mem p hp => ?_, covered⟩
  · apply wf.canonical.lo_lt.imp
    intro a b lt
    rw [BitVec.lt_def]
    exact lt
  · rw [BitVec.le_def]
    exact wf.canonical.proper en mem
  · refine List.Pairwise.imp_of_mem (fun {a b} ha hb gap => ⟨fun p both => ?_, ?_⟩) wf.canonical.gap
    · rw [contains_iff, contains_iff] at both
      simp only [ExtentNode.lo, ExtentNode.hi] at gap
      omega
    · have la := wf.canonical.proper a ha
      have lb := wf.canonical.proper b hb
      omega
  · -- a tracked page next to an extent is covered by another one, which cannot touch it
    have hp' : p ∈ pages nodes := by
      rw [covered]
      exact hp
    obtain ⟨A, e, B, split, cov⟩ := wf.split hp'
    have hs := cov.start
    have he := cov.ending
    have le := wf.canonical.proper en mem
    rw [show nodes = A ++ e :: B from split] at mem
    rcases cov.clear mem with below | rfl | above
    · omega
    · omega
    · omega

/-- Two extents are bridged and split again. -/
theorem extent_table_refines_bridge :
    pages (World.after .plain (fun _ => true)
      [.insert 5, .insert 7, .insert 6, .remove 6, .remove 9]).nodes = ({5, 7} : Finset ulong) :=
  (extent_table_refines .plain [.insert 5, .insert 7, .insert 6, .remove 6, .remove 9]
    (by decide)).2.2.2.2.trans (congrArg _ (by decide))

end CS519.Extents
