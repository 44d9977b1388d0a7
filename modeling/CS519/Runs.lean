import Mathlib.Data.List.Pairwise
import Mathlib.Data.Set.Card
import Mathlib.Data.Set.Insert
import Mathlib.Order.Interval.Finset.Nat
import Mathlib.Tactic

/-!
# Maximal runs of natural numbers

A list whose entries carry a lower and an upper bound is `Canonical` when every entry is a non-empty
range and consecutive ranges leave at least one number between them: it lists the maximal runs of the
set it covers, in ascending order. The two facts everything else rests on are `locate` (a number that is
not covered splits the list, and touches at most one range on either side) and `Canonical.unique` (a set
has one such list).

The bounds are functions `lo` and `hi` of an arbitrary carrier, so that the lemmas apply to lists of
records without copying their bounds out.
-/

namespace CS519.Runs
variable {α β : Type*} {lo hi : α → ℕ} {lo' hi' : β → ℕ}

/-- Non-empty ranges in ascending order with a gap between any two of them. -/
structure Canonical (lo hi : α → ℕ) (l : List α) : Prop where
  proper : ∀ a ∈ l, lo a ≤ hi a
  gap : l.Pairwise fun a b => hi a + 1 < lo b

/-- The numbers that lie in one of the ranges. -/
def cover (lo hi : α → ℕ) (l : List α) : Set ℕ :=
  {x | ∃ a ∈ l, lo a ≤ x ∧ x ≤ hi a}

/-- No ranges cover nothing. -/
@[simp] lemma cover_nil : cover lo hi [] = ∅ := by
  ext x
  simp [cover]

/-- A number is covered if it lies in one of the ranges. -/
lemma mem_cover {l : List α} {x : ℕ} : x ∈ cover lo hi l ↔ ∃ a ∈ l, lo a ≤ x ∧ x ≤ hi a :=
  Iff.rfl

/-- One range more. -/
lemma mem_cover_cons {a : α} {l : List α} {x : ℕ} :
    x ∈ cover lo hi (a :: l) ↔ (lo a ≤ x ∧ x ≤ hi a) ∨ x ∈ cover lo hi l := by
  simp [cover]

/-- The ranges of two lists. -/
lemma mem_cover_append {A B : List α} {x : ℕ} :
    x ∈ cover lo hi (A ++ B) ↔ x ∈ cover lo hi A ∨ x ∈ cover lo hi B := by
  constructor
  · rintro ⟨a, ha, h⟩
    cases List.mem_append.mp ha with
    | inl ha => exact .inl ⟨a, ha, h⟩
    | inr ha => exact .inr ⟨a, ha, h⟩
  · rintro (⟨a, ha, h⟩ | ⟨a, ha, h⟩)
    · exact ⟨a, List.mem_append_left B ha, h⟩
    · exact ⟨a, List.mem_append_right A ha, h⟩

/-- No ranges are canonical. -/
lemma Canonical.nil : Canonical lo hi [] := ⟨by simp, .nil⟩

/-- A range that is not empty is canonical. -/
lemma Canonical.singleton {a : α} (h : lo a ≤ hi a) : Canonical lo hi [a] :=
  ⟨by simpa using h, List.pairwise_singleton _ _⟩

/-- Two ranges with a gap between them are canonical. -/
lemma Canonical.pair {a b : α} (ha : lo a ≤ hi a) (hb : lo b ≤ hi b) (h : hi a + 1 < lo b) :
    Canonical lo hi [a, b] :=
  ⟨by simp [ha, hb], by simpa using h⟩

/-- The ranges after the first one are canonical. -/
lemma Canonical.tail {a : α} {l : List α} (h : Canonical lo hi (a :: l)) : Canonical lo hi l :=
  ⟨fun b hb => h.proper b (by simp [hb]), (List.pairwise_cons.mp h.gap).2⟩

/-- The first range is not empty, and lies apart from the others. -/
lemma Canonical.head {a : α} {l : List α} (h : Canonical lo hi (a :: l)) :
    lo a ≤ hi a ∧ ∀ b ∈ l, hi a + 1 < lo b :=
  ⟨h.proper a (by simp), (List.pairwise_cons.mp h.gap).1⟩

/-- A list is canonical when its two parts are and all of the first lies below all of the second. -/
lemma canonical_append {A B : List α} :
    Canonical lo hi (A ++ B) ↔
      Canonical lo hi A ∧ Canonical lo hi B ∧ ∀ a ∈ A, ∀ b ∈ B, hi a + 1 < lo b := by
  constructor
  · rintro ⟨pr, gap⟩
    obtain ⟨gA, gB, cross⟩ := List.pairwise_append.mp gap
    exact ⟨⟨fun a ha => pr a (by simp [ha]), gA⟩, ⟨fun b hb => pr b (by simp [hb]), gB⟩, cross⟩
  · rintro ⟨cA, cB, cross⟩
    refine ⟨fun a ha => ?_, List.pairwise_append.mpr ⟨cA.gap, cB.gap, cross⟩⟩
    cases List.mem_append.mp ha with
    | inl h => exact cA.proper a h
    | inr h => exact cB.proper a h

/-- The middle of a canonical list may be exchanged for ranges that keep clear of both sides. -/
lemma Canonical.replace {A O N B : List α} (h : Canonical lo hi (A ++ O ++ B))
    (hN : Canonical lo hi N) (below : ∀ a ∈ A, ∀ n ∈ N, hi a + 1 < lo n)
    (above : ∀ n ∈ N, ∀ b ∈ B, hi n + 1 < lo b) : Canonical lo hi (A ++ N ++ B) := by
  obtain ⟨hAO, hB, cross⟩ := canonical_append.mp h
  obtain ⟨hA, _, _⟩ := canonical_append.mp hAO
  refine canonical_append.mpr ⟨canonical_append.mpr ⟨hA, hN, below⟩, hB, fun x hx b hb => ?_⟩
  cases List.mem_append.mp hx with
  | inl h => exact cross x (by simp [h]) b hb
  | inr h => exact above x h b hb

/-- Lower bounds ascend strictly. -/
lemma Canonical.lo_lt {l : List α} (h : Canonical lo hi l) :
    l.Pairwise fun a b => lo a < lo b := by
  refine List.Pairwise.imp_of_mem (fun {a b} ha _ hab => ?_) h.gap
  have := h.proper a ha
  omega

/-- Of two entries one lies below the other. -/
lemma Canonical.apart {l : List α} (h : Canonical lo hi l) {a b : α} (ha : a ∈ l) (hb : b ∈ l)
    (ne : a ≠ b) : hi a + 1 < lo b ∨ hi b + 1 < lo a := by
  have : Std.Symm fun x y => hi x + 1 < lo y ∨ hi y + 1 < lo x := ⟨fun _ _ => Or.symm⟩
  have gap : l.Pairwise fun x y => hi x + 1 < lo y ∨ hi y + 1 < lo x := h.gap.imp Or.inl
  exact gap.forall ha hb ne

/-- No number lies in two ranges. -/
lemma Canonical.disjoint {l : List α} (h : Canonical lo hi l) :
    l.Pairwise fun a b => ∀ x, ¬((lo a ≤ x ∧ x ≤ hi a) ∧ lo b ≤ x ∧ x ≤ hi b) := by
  refine List.Pairwise.imp (fun {a b} hab x => ?_) h.gap
  rintro ⟨⟨_, _⟩, _, _⟩
  omega

/-- The other ranges keep clear of an entry on either side. -/
lemma Canonical.split_mem {l : List α} (h : Canonical lo hi l) {e : α} (he : e ∈ l) :
    ∃ A B, l = A ++ e :: B ∧ (∀ a ∈ A, hi a + 1 < lo e) ∧ ∀ b ∈ B, hi e + 1 < lo b := by
  obtain ⟨A, B, rfl⟩ := List.append_of_mem he
  obtain ⟨_, hB, cross⟩ := canonical_append.mp h
  exact ⟨A, B, rfl, fun a ha => cross a ha e (by simp), hB.head.2⟩

/-- A covered number lies in one range, clear of the ranges on either side. -/
lemma Canonical.split {l : List α} (h : Canonical lo hi l) {p : ℕ} (hp : p ∈ cover lo hi l) :
    ∃ A e B, l = A ++ e :: B ∧ lo e ≤ p ∧ p ≤ hi e ∧
      (∀ a ∈ A, hi a + 1 < lo e) ∧ ∀ b ∈ B, hi e + 1 < lo b := by
  obtain ⟨e, he, lp, ph⟩ := hp
  obtain ⟨A, B, eq, below, above⟩ := h.split_mem he
  exact ⟨A, e, B, eq, lp, ph, below, above⟩

/-- A number that is not covered splits the list; at most one range ends right before it and at most
one starts right after it. -/
lemma Canonical.locate {p : ℕ} : ∀ {l : List α}, Canonical lo hi l → p ∉ cover lo hi l →
    ∃ A B, ∃ L R : Option α, l = A ++ L.toList ++ R.toList ++ B ∧
      (∀ a ∈ A, hi a + 1 < p) ∧ (∀ a ∈ L, hi a + 1 = p) ∧
      (∀ b ∈ R, lo b = p + 1) ∧ ∀ b ∈ B, p + 1 < lo b
  | [], _, _ => ⟨[], [], none, none, by simp⟩
  | a :: l, h, hp => by
    rw [mem_cover_cons, not_or] at hp
    obtain ⟨pa, pl⟩ := hp
    obtain ⟨le, gap⟩ := h.head
    cases lt_or_ge p (lo a) with
    | inl lt =>
      -- everything lies above `p`, and only `a` can touch it
      have above : ∀ b ∈ l, p + 1 < lo b := fun b hb => by have := gap b hb; omega
      by_cases e : lo a = p + 1
      · exact ⟨[], l, none, some a, by simp, by simp, by simp, by simpa using e, above⟩
      · refine ⟨[], a :: l, none, none, by simp, by simp, by simp, by simp, fun b hb => ?_⟩
        rcases List.mem_cons.mp hb with rfl | hb
        · omega
        · exact above b hb
    | inr ge =>
      have below : hi a < p := by
        by_contra c
        exact pa ⟨ge, by omega⟩
      obtain ⟨A, B, L, R, rfl, hA, hL, hR, hB⟩ := h.tail.locate pl
      by_cases e : hi a + 1 = p
      · -- `a` touches `p` from below, so nothing after `a` can
        have eA : A = [] := by
          apply List.eq_nil_iff_forall_not_mem.mpr
          intro x hx
          have := gap x (by simp [hx])
          have := h.tail.proper x (by simp [hx])
          have := hA x hx
          omega
        have eL : L = none := by
          apply Option.eq_none_iff_forall_not_mem.mpr
          intro x hx
          have hm : x ∈ A ++ L.toList ++ R.toList ++ B := by simp [Option.mem_toList.mpr hx]
          have := gap x hm
          have := h.tail.proper x hm
          have := hL x hx
          omega
        subst eA eL
        exact ⟨[], B, some a, R, by simp, by simp, by simpa using e, hR, hB⟩
      · refine ⟨a :: A, B, L, R, by simp, fun x hx => ?_, hL, hR, hB⟩
        rcases List.mem_cons.mp hx with rfl | hx
        · omega
        · exact hA x hx

/-- Two canonical lists that cover the same numbers have the same bounds, entry by entry. -/
theorem Canonical.unique : ∀ {l : List α} {m : List β},
    Canonical lo hi l → Canonical lo' hi' m → cover lo hi l = cover lo' hi' m →
      l.map (fun a => (lo a, hi a)) = m.map fun b => (lo' b, hi' b)
  | [], [], _, _, _ => rfl
  | [], b :: m, _, hm, e => by
    have : lo' b ∈ cover lo hi [] := e ▸ mem_cover_cons.mpr (.inl ⟨le_rfl, hm.head.1⟩)
    simp at this
  | a :: l, [], hl, _, e => by
    have : lo a ∈ cover lo' hi' [] := e ▸ mem_cover_cons.mpr (.inl ⟨le_rfl, hl.head.1⟩)
    simp at this
  | a :: l, b :: m, hl, hm, e => by
    obtain ⟨la, ga⟩ := hl.head
    obtain ⟨lb, gb⟩ := hm.head
    have pl := hl.tail.proper
    have pm := hm.tail.proper
    have iff : ∀ x, x ∈ cover lo hi (a :: l) ↔ x ∈ cover lo' hi' (b :: m) := fun x => by rw [e]
    -- both lists start at the least covered number
    have elo : lo a = lo' b := by
      rcases mem_cover_cons.mp ((iff (lo a)).mp (mem_cover_cons.mpr (.inl ⟨le_rfl, la⟩))) with
        h1 | ⟨c, hc, h1⟩ <;>
      rcases mem_cover_cons.mp ((iff (lo' b)).mpr (mem_cover_cons.mpr (.inl ⟨le_rfl, lb⟩))) with
        h2 | ⟨d, hd, h2⟩
      · omega
      · have := ga d hd; omega
      · have := gb c hc; omega
      · have := ga d hd; have := gb c hc; omega
    -- and the first run ends at the same number, the first one after which there is a gap
    have ehi : hi a = hi' b := by
      rcases lt_trichotomy (hi a) (hi' b) with lt | eq | gt
      · rcases mem_cover_cons.mp
          ((iff (hi a + 1)).mpr (mem_cover_cons.mpr (.inl ⟨by omega, by omega⟩))) with h | ⟨c, hc, h⟩
        · omega
        · have := ga c hc; omega
      · exact eq
      · rcases mem_cover_cons.mp
          ((iff (hi' b + 1)).mp (mem_cover_cons.mpr (.inl ⟨by omega, by omega⟩))) with h | ⟨c, hc, h⟩
        · omega
        · have := gb c hc; omega
    have etail : cover lo hi l = cover lo' hi' m := by
      ext x
      constructor
      · rintro ⟨c, hc, h⟩
        have := ga c hc
        cases mem_cover_cons.mp ((iff x).mp (mem_cover_cons.mpr (.inr ⟨c, hc, h⟩))) with
        | inl h' => omega
        | inr h' => exact h'
      · rintro ⟨c, hc, h⟩
        have := gb c hc
        cases mem_cover_cons.mp ((iff x).mpr (mem_cover_cons.mpr (.inr ⟨c, hc, h⟩))) with
        | inl h' => omega
        | inr h' => exact h'
    rw [List.map_cons, List.map_cons, hl.tail.unique hm.tail etail, elo, ehi]

/-- The numbers from `a` to `b` belong to a set, and the next ones on either side do not. -/
def MaximalRun (s : Set ℕ) (a b : ℕ) : Prop :=
  a ≤ b ∧ (∀ x, a ≤ x → x ≤ b → x ∈ s) ∧ (∀ x ∈ s, x + 1 ≠ a) ∧ b + 1 ∉ s

/-- A canonical list holds the maximal runs of the set it covers. -/
lemma Canonical.maximalRun_iff {l : List α} (h : Canonical lo hi l) {a b : ℕ} :
    MaximalRun (cover lo hi l) a b ↔ (a, b) ∈ l.map fun e => (lo e, hi e) := by
  have same : ∀ {e f}, e ∈ l → f ∈ l → ∀ {x}, (lo e ≤ x ∧ x ≤ hi e + 1) → (lo f ≤ x ∧ x ≤ hi f) →
      e = f := by
    intro e f he hf x hx hx'
    by_contra ne
    rcases h.apart he hf ne with lt | lt
    · omega
    · omega
  rw [List.mem_map]
  constructor
  · rintro ⟨le, all, first, last⟩
    obtain ⟨e, he, la, ha⟩ := mem_cover.mp (all a le_rfl le)
    have start : lo e = a := by
      by_contra ne
      exact first (a - 1) ⟨e, he, by omega, by omega⟩ (by omega)
    have above : hi e ≤ b := by
      by_contra lt
      exact last ⟨e, he, by omega, by omega⟩
    refine ⟨e, he, Prod.ext start (le_antisymm above (not_lt.mp fun lt => ?_))⟩
    -- the number after the entry is covered by another one, which touches it
    obtain ⟨f, hf, lf, fh⟩ := mem_cover.mp (all (hi e + 1) (by omega) lt)
    cases same he hf ⟨by omega, le_rfl⟩ ⟨lf, fh⟩
    omega
  · rintro ⟨e, he, eq⟩
    obtain ⟨rfl, rfl⟩ := Prod.mk.inj eq
    refine ⟨h.proper e he, fun x lx xh => ⟨e, he, lx, xh⟩, ?_, ?_⟩
    · rintro x ⟨f, hf, lf, fh⟩ eq
      have proper := h.proper e he
      cases same hf he (x := lo e) ⟨by omega, by omega⟩ ⟨le_rfl, proper⟩
      omega
    · rintro ⟨f, hf, lf, fh⟩
      have proper := h.proper e he
      cases same he hf ⟨by omega, le_rfl⟩ ⟨lf, fh⟩
      omega

/-- The maximal runs are as many as the entries. -/
lemma Canonical.ncard_maximalRun {l : List α} (h : Canonical lo hi l) :
    {r : ℕ × ℕ | MaximalRun (cover lo hi l) r.1 r.2}.ncard = l.length := by
  have nodup : (l.map fun e => (lo e, hi e)).Nodup := by
    refine List.pairwise_map.mpr (h.lo_lt.imp fun lt eq => ?_)
    exact lt.ne (Prod.mk.inj eq).1
  have runs : {r : ℕ × ℕ | MaximalRun (cover lo hi l) r.1 r.2} =
      ((l.map fun e => (lo e, hi e)).toFinset : Set (ℕ × ℕ)) := by
    ext r
    rw [List.coe_toFinset]
    exact h.maximalRun_iff
  rw [runs, Set.ncard_coe_finset, List.toFinset_card_of_nodup nodup, List.length_map]

/-- The covered numbers are as many as the ranges hold together. -/
lemma Canonical.ncard_cover : ∀ {l : List α}, Canonical lo hi l →
    (cover lo hi l).Finite ∧ (cover lo hi l).ncard = (l.map fun a => hi a + 1 - lo a).sum
  | [], _ => by simp
  | a :: l, h => by
    obtain ⟨finite, count⟩ := h.tail.ncard_cover
    have parts : cover lo hi (a :: l) = (Finset.Icc (lo a) (hi a) : Set ℕ) ∪ cover lo hi l := by
      ext x
      rw [mem_cover_cons, Set.mem_union, Finset.mem_coe, Finset.mem_Icc]
    have apart : Disjoint (Finset.Icc (lo a) (hi a) : Set ℕ) (cover lo hi l) := by
      refine Set.disjoint_left.mpr fun x hx => ?_
      rintro ⟨b, hb, lb, _⟩
      have := h.head.2 b hb
      have := (Finset.mem_Icc.mp (Finset.mem_coe.mp hx)).2
      omega
    have own := Finset.finite_toSet (Finset.Icc (lo a) (hi a))
    rw [parts, Set.ncard_union_eq apart own finite, Set.ncard_coe_finset, Nat.card_Icc, count,
      List.map_cons, List.sum_cons]
    exact ⟨own.union finite, rfl⟩

end CS519.Runs
