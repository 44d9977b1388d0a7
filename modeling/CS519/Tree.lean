import Mathlib.Data.List.Sort
import Mathlib.Tactic

/-!
# Search trees under arbitrary rebalancing

Binary trees with coloured nodes, their in-order traversal, and the three walks a search tree is used
through: `descend` (go right where a test holds, remember the last node where it did), `find` (exact
search by a three-way comparison) and `link` (hang a new leaf at the end of an insertion walk). Each
walk is described by the in-order sequence alone (`descend_eq`, `find_eq_some`, `inorder_link`), so
that nothing proved from these lemmas depends on the shape of a tree.

`Rebalance` is what a user of a balanced-tree library relies on: `insertColor` may reshape the tree
after a link and `erase` removes one node, and both otherwise keep the in-order sequence.
`Rebalance.plain` is the instance that never reshapes.
-/

namespace CS519

/-- The colour of a node. -/
inductive Color where
  | red
  | black
deriving DecidableEq, Repr

/-- A binary tree with a value and a colour in every node. -/
inductive Tree (α : Type*) where
  | nil
  | node (color : Color) (left : Tree α) (val : α) (right : Tree α)
deriving DecidableEq, Repr

namespace Tree
variable {α : Type*}

/-- The in-order sequence of values. -/
def inorder : Tree α → List α
  | nil => []
  | node _ l a r => l.inorder ++ a :: r.inorder

/-- Overwrite every value, keeping the shape. -/
def map (f : α → α) : Tree α → Tree α
  | nil => nil
  | node c l a r => node c (l.map f) (f a) (r.map f)

/-- Walk down from the root, right where `p` holds and left where it does not, and return the last
value on the path where `p` held. -/
def descend (p : α → Bool) : Tree α → Option α → Option α
  | nil, best => best
  | node _ l a r, best => if p a then r.descend p (some a) else l.descend p best

/-- Exact search: left where `before` holds, right where `after` holds, else the node is found. -/
def find (before after : α → Bool) : Tree α → Option α
  | nil => none
  | node _ l a r =>
    if before a then l.find before after else if after a then r.find before after else some a

/-- Walk to a free link, left where `goLeft` holds, and hang `x` there as a red leaf. -/
def link (goLeft : α → Bool) (x : α) : Tree α → Tree α
  | nil => node .red nil x nil
  | node c l a r => if goLeft a then node c (l.link goLeft x) a r else node c l a (r.link goLeft x)

/-- The empty tree has no elements. -/
@[simp] lemma inorder_nil : (nil : Tree α).inorder = [] := rfl

/-- The elements of the left subtree, the root, and those of the right one. -/
@[simp] lemma inorder_node (c : Color) (l : Tree α) (a : α) (r : Tree α) :
    (node c l a r).inorder = l.inorder ++ a :: r.inorder := rfl

/-- A map keeps the order. -/
@[simp] lemma inorder_map (f : α → α) (t : Tree α) : (t.map f).inorder = t.inorder.map f := by
  induction t with
  | nil => rfl
  | node c l a r ihl ihr => simp [map, ihl, ihr]

/-- On a tree whose in-order sequence is ordered by `R`, a descent along a test that is closed under
`R`-predecessors returns the last value that passes the test. -/
lemma descend_eq {R : α → α → Prop} {p : α → Bool} (closed : ∀ a b, R a b → p b → p a) :
    ∀ {t : Tree α} (best : Option α), t.inorder.Pairwise R →
      t.descend p best = ((t.inorder.filter p).getLast?).or best
  | nil, best, _ => by simp [descend]
  | node c l a r, best, sorted => by
    obtain ⟨sl, sar, cross⟩ := List.pairwise_append.mp sorted
    obtain ⟨sa, sr⟩ := List.pairwise_cons.mp sar
    by_cases h : p a
    · -- everything to the left passes as well, so the answer is in `a :: r`
      rw [descend, if_pos h, descend_eq closed (some a) sr]
      simp only [inorder_node, List.filter_append, List.filter_cons_of_pos h, List.getLast?_append,
        List.getLast?_cons]
      cases (r.inorder.filter p).getLast? <;> simp
    · have hr : r.inorder.filter p = [] := by
        refine List.filter_eq_nil_iff.mpr fun b hb hp => h ?_
        exact closed a b (sa b hb) hp
      rw [descend, if_neg h, descend_eq closed best sl]
      simp [h, hr]

/-- Whatever the order, a descent that starts with nothing remembered returns a value of the tree that
passes the test. -/
lemma descend_sound {p : α → Bool} {x : α} {t : Tree α} (h : t.descend p none = some x) :
    x ∈ t.inorder ∧ p x := by
  have key : ∀ (t : Tree α) (best : Option α), t.descend p best = some x →
      best = some x ∨ (x ∈ t.inorder ∧ p x) := by
    intro t
    induction t with
    | nil => exact fun best h => .inl h
    | node c l a r ihl ihr =>
      intro best h
      rw [descend] at h
      split at h
      · rename_i ha
        rcases ihr _ h with e | ⟨mem, px⟩
        · cases e
          exact .inr ⟨by simp, ha⟩
        · exact .inr ⟨by simp [mem], px⟩
      · rcases ihl _ h with e | ⟨mem, px⟩
        · exact .inl e
        · exact .inr ⟨by simp [mem], px⟩
  cases key t none h with
  | inl e => cases e
  | inr hx => exact hx

/-- An exact search in an ordered tree finds `x` when the values before `x` send it right and the
values after `x` send it left. -/
lemma find_eq_some {R : α → α → Prop} {before after : α → Bool} {x : α}
    (hx : before x = false ∧ after x = false)
    (lt : ∀ a, R a x → before a = false ∧ after a = true) (gt : ∀ a, R x a → before a = true) :
    ∀ {t : Tree α}, t.inorder.Pairwise R → x ∈ t.inorder → t.find before after = some x
  | nil, _, mem => by simp at mem
  | node c l a r, sorted, mem => by
    obtain ⟨sl, sar, cross⟩ := List.pairwise_append.mp sorted
    obtain ⟨sa, sr⟩ := List.pairwise_cons.mp sar
    simp only [inorder_node, List.mem_append, List.mem_cons] at mem
    rcases mem with h | rfl | h
    · have ha := gt a (cross x h a (by simp))
      simp [find, ha, find_eq_some hx lt gt sl h]
    · simp [find, hx]
    · have ha := lt a (sa x h)
      simp [find, ha, find_eq_some hx lt gt sr h]

/-- What an exact search returns is in the tree and neither before nor after. -/
lemma find_sound {before after : α → Bool} {x : α} :
    ∀ {t : Tree α}, t.find before after = some x →
      x ∈ t.inorder ∧ before x = false ∧ after x = false
  | nil, h => by simp [find] at h
  | node c l a r, h => by
    rw [find] at h
    split at h
    · obtain ⟨mem, hx⟩ := find_sound h
      exact ⟨by simp [mem], hx⟩
    · split at h
      · obtain ⟨mem, hx⟩ := find_sound h
        exact ⟨by simp [mem], hx⟩
      · rename_i hb ha
        cases h
        exact ⟨by simp, by simpa using hb, by simpa using ha⟩

/-- Linking a leaf puts it between the values that go right and the values that go left. -/
lemma inorder_link {goLeft : α → Bool} {x : α} :
    ∀ {t : Tree α} {A B : List α}, t.inorder = A ++ B →
      (∀ a ∈ A, goLeft a = false) → (∀ b ∈ B, goLeft b = true) →
      (t.link goLeft x).inorder = A ++ x :: B
  | nil, A, B, h, _, _ => by
    obtain ⟨rfl, rfl⟩ := List.append_eq_nil_iff.mp h.symm
    rfl
  | node c l a r, A, B, h, hA, hB => by
    by_cases ha : goLeft a
    · -- `a` is in the second part, so the first part lies within `l`
      obtain ⟨C, hl, hB'⟩ : ∃ C, l.inorder = A ++ C ∧ B = C ++ a :: r.inorder := by
        rcases List.append_eq_append_iff.mp h with ⟨D, hA', hB'⟩ | ⟨C, hl, hB'⟩
        · cases D with
          | nil => exact ⟨[], by simpa using hA'.symm, by simpa using hB'.symm⟩
          | cons d D =>
            have e : a = d := (List.cons.inj hB').1
            have := hA a (by simp [hA', e])
            simp [ha] at this
        · exact ⟨C, hl, hB'⟩
      have ih := inorder_link (x := x) hl hA (fun b hb => hB b (by simp [hB', hb]))
      simp [link, ha, ih, hB']
    · obtain ⟨C, hA', hr⟩ : ∃ C, A = l.inorder ++ a :: C ∧ r.inorder = C ++ B := by
        rcases List.append_eq_append_iff.mp h with ⟨D, hA', hB'⟩ | ⟨C, hl, hB'⟩
        · cases D with
          | nil =>
            have e : B = a :: r.inorder := by simpa using hB'.symm
            have := hB a (by simp [e])
            simp [ha] at this
          | cons d D =>
            obtain ⟨rfl, hr⟩ := List.cons.inj hB'
            exact ⟨D, hA', hr⟩
        · have := hB a (by simp [hB'])
          simp [ha] at this
      have ih := inorder_link (x := x) hr (fun b hb => hA b (by simp [hA', hb])) hB
      simp [link, ha, ih, hA']

/-- A walk depends on its test at the values of the tree only. -/
lemma link_congr {goLeft goLeft' : α → Bool} {x : α} {t : Tree α}
    (same : ∀ a ∈ t.inorder, goLeft a = goLeft' a) : t.link goLeft x = t.link goLeft' x := by
  induction t with
  | nil => rfl
  | node c l a r ihl ihr =>
    have left := ihl fun b mem => same b (by simp [mem])
    have right := ihr fun b mem => same b (by simp [mem])
    rw [link, link, left, right, same a (by simp)]

/-- Linking a leaf adds one value, wherever it lands. -/
lemma length_inorder_link (goLeft : α → Bool) (x : α) (t : Tree α) :
    (t.link goLeft x).inorder.length = t.inorder.length + 1 := by
  induction t with
  | nil => rfl
  | node c l a r ihl ihr =>
    rw [link]
    split
    · simp only [inorder_node, List.length_append, ihl]
      omega
    · simp only [inorder_node, List.length_append, List.length_cons, ihr]
      omega

/-- Linking a leaf adds its value only. -/
lemma mem_inorder_link {goLeft : α → Bool} {x y : α} {t : Tree α}
    (h : y ∈ (t.link goLeft x).inorder) : y = x ∨ y ∈ t.inorder := by
  induction t with
  | nil => exact .inl (List.mem_singleton.mp h)
  | node c l a r ihl ihr =>
    rw [link] at h
    split at h
    · cases List.mem_append.mp h with
      | inl h => exact (ihl h).imp_right fun m => by simp [m]
      | inr h => exact .inr (List.mem_append_right _ h)
    · cases List.mem_append.mp h with
      | inl h => exact .inr (List.mem_append_left _ h)
      | inr h =>
        rcases List.mem_cons.mp h with rfl | h
        · exact .inr (by simp)
        · exact (ihr h).imp_right fun m => by simp [m]

/-- The leftmost value and the tree without it. -/
def popMin : Tree α → Option (α × Tree α)
  | nil => none
  | node c l a r =>
    match l.popMin with
    | none => some (a, r)
    | some (m, l') => some (m, node c l' a r)

/-- The two subtrees of a removed node as one tree: the successor takes the node's place. -/
def join (c : Color) (l r : Tree α) : Tree α :=
  match l, r.popMin with
  | l, none => l
  | nil, some _ => r
  | l, some (m, r') => node c l m r'

/-- Remove the first node in the in-order sequence that satisfies `p`. -/
def eraseP (p : α → Bool) : Tree α → Tree α
  | nil => nil
  | node c l a r =>
    if l.inorder.any p then node c (l.eraseP p) a r
    else if p a then join c l r
    else node c l a (r.eraseP p)

/-- What is popped is the first element. -/
lemma inorder_popMin : ∀ {t : Tree α},
    t.inorder = match t.popMin with | none => [] | some (m, t') => m :: t'.inorder
  | nil => rfl
  | node c l a r => by
    have ih := inorder_popMin (t := l)
    rw [popMin]
    cases h : l.popMin with
    | none =>
      simp only [h] at ih
      simp [ih]
    | some q =>
      simp only [h] at ih
      simp [ih]

/-- The elements of two joined trees. -/
lemma inorder_join (c : Color) (l r : Tree α) :
    (join c l r).inorder = l.inorder ++ r.inorder := by
  have h := inorder_popMin (t := r)
  unfold join
  cases hm : r.popMin with
  | none =>
    simp only [hm] at h
    cases l <;> simp [h]
  | some q =>
    simp only [hm] at h
    cases l <;> simp [h]

/-- The erased element is the first one with the property. -/
lemma inorder_eraseP (p : α → Bool) :
    ∀ t : Tree α, (t.eraseP p).inorder = t.inorder.eraseP p
  | nil => rfl
  | node c l a r => by
    rw [eraseP]
    split
    · rename_i h
      obtain ⟨b, hb, hp⟩ := List.any_eq_true.mp h
      rw [inorder_node, inorder_node, inorder_eraseP p l, List.eraseP_append_left hp _ hb]
    · rename_i h
      have hl : ∀ b ∈ l.inorder, ¬p b := by simpa using h
      rw [inorder_node, List.eraseP_append_right _ hl]
      split
      · rename_i ha
        rw [inorder_join, List.eraseP_cons_of_pos ha]
      · rename_i ha
        rw [inorder_node, inorder_eraseP p r, List.eraseP_cons_of_neg ha]

end Tree

/-- A balanced-tree library as its callers see it: reshaping is free, the in-order sequence is not. A
node is designated by a test on the stored values. -/
structure Rebalance (α : Type*) where
  insertColor : (α → Bool) → Tree α → Tree α
  erase : (α → Bool) → Tree α → Tree α
  inorder_insertColor : ∀ p t, (insertColor p t).inorder = t.inorder
  inorder_erase : ∀ p t, (erase p t).inorder = t.inorder.eraseP p

attribute [simp] Rebalance.inorder_insertColor Rebalance.inorder_erase

/-- No rebalancing: a linked leaf stays where it is, an erased node is replaced by its successor. -/
def Rebalance.plain {α : Type*} : Rebalance α where
  insertColor _ t := t
  erase := Tree.eraseP
  inorder_insertColor _ _ := rfl
  inorder_erase := Tree.inorder_eraseP

end CS519
