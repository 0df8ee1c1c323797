import Mathlib.Order.Basic
import FlowClassifier.Framework.Dict

/-!
# Threshold trees and their boxes

A threshold tree compares one feature with a threshold in every inner node: at most it goes left,
above it right.  Its leaves can be described by *boxes* over numbered positions, a range of
positions for each feature tested on the path, when the thresholds of every feature are numbered in
increasing order: going left past threshold `t` means position at most `pos t`, going right means a
position above it.

`filter_boxes` says that the boxes partition the positions: every vector of positions lies in
exactly one box, the one of the leaf that evaluating the tree on positions reaches.  The boxes are
built by a traversal that intersects ranges by assigning to one end only, so the result needs a
tree whose tests tighten the bounds of their path (`Tight`): a test outside them would widen the
box again.
-/

namespace FlowClassifier

/-- A tree that compares features in `ι` with thresholds in `α`. -/
inductive ThresholdTree (ι α β : Type*)
  | leaf (value : β)
  | node (i : ι) (t : α) (left right : ThresholdTree ι α β)

namespace ThresholdTree

variable {ι α β : Type*}

/-- The leaf reached when `goesLeft` decides the tests. -/
def eval (goesLeft : ι → α → Bool) : ThresholdTree ι α β → β
  | leaf value => value
  | node i t left right =>
      if goesLeft i t then left.eval goesLeft else right.eval goesLeft

/-- The number of tests on the longest path. -/
def height : ThresholdTree ι α β → ℕ
  | leaf _ => 0
  | node _ _ left right => max left.height right.height + 1

lemma height_node_lt_succ_iff {i : ι} {t : α} {left right : ThresholdTree ι α β} {depth : ℕ} :
    (node i t left right).height < depth + 1 ↔ left.height < depth ∧ right.height < depth := by
  rw [height, Nat.add_lt_add_iff_right, Nat.max_lt]

/-- The values of the leaves, from left to right. -/
def leafValues : ThresholdTree ι α β → List β
  | leaf value => [value]
  | node _ _ left right => left.leafValues ++ right.leafValues

variable [DecidableEq ι]

/-- The thresholds a feature is compared with, in preorder. -/
def thresholds (i : ι) : ThresholdTree ι α β → List α
  | leaf _ => []
  | node j t left right =>
      (if j = i then [t] else []) ++ left.thresholds i ++ right.thresholds i

lemma mem_thresholds_node {i j : ι} {s t : α} {left right : ThresholdTree ι α β} :
    s ∈ (node j t left right).thresholds i ↔
      (j = i ∧ s = t) ∨ s ∈ left.thresholds i ∨ s ∈ right.thresholds i := by
  by_cases h : j = i <;> simp [thresholds, h]

lemma mem_thresholds_root {i : ι} {t : α} {left right : ThresholdTree ι α β} :
    t ∈ (node i t left right).thresholds i := mem_thresholds_node.2 (Or.inl ⟨rfl, rfl⟩)

lemma mem_thresholds_left {i j : ι} {s t : α} {left right : ThresholdTree ι α β}
    (h : s ∈ left.thresholds i) : s ∈ (node j t left right).thresholds i :=
  mem_thresholds_node.2 (Or.inr (Or.inl h))

lemma mem_thresholds_right {i j : ι} {s t : α} {left right : ThresholdTree ι α β}
    (h : s ∈ right.thresholds i) : s ∈ (node j t left right).thresholds i :=
  mem_thresholds_node.2 (Or.inr (Or.inr h))

/-- Two ways of deciding that agree on the tree's own thresholds reach the same leaf. -/
lemma eval_congr {p q : ι → α → Bool} {tree : ThresholdTree ι α β}
    (h : ∀ i, ∀ t ∈ tree.thresholds i, p i t = q i t) : tree.eval p = tree.eval q := by
  induction tree with
  | leaf value => rfl
  | node i t left right ihl ihr =>
      have hroot : p i t = q i t := h i t mem_thresholds_root
      have hleft := ihl fun j s hs => h j s (mem_thresholds_left hs)
      have hright := ihr fun j s hs => h j s (mem_thresholds_right hs)
      simp only [eval, hroot, hleft, hright]

/-- One bound is replaced. -/
def update (f : ι → α) (i : ι) (a : α) (j : ι) : α := if j = i then a else f j

@[simp] lemma update_self (f : ι → α) (i : ι) (a : α) : update f i a i = a := by
  simp [update]

lemma update_of_ne (f : ι → α) {i j : ι} (a : α) (h : j ≠ i) : update f i a j = f j := by
  simp [update, h]

/-- Every test lies strictly between the bounds its path imposes on the feature. -/
def Tight [LT α] (lo hi : ι → α) : ThresholdTree ι α β → Prop
  | leaf _ => True
  | node i t left right =>
      (lo i < t ∧ t < hi i) ∧ left.Tight lo (update hi i t) ∧ right.Tight (update lo i t) hi

/-- In a tight tree all thresholds lie between the bounds it starts from. -/
lemma Tight.between [Preorder α] {lo hi : ι → α} {tree : ThresholdTree ι α β}
    (h : tree.Tight lo hi) {i : ι} {t : α} (ht : t ∈ tree.thresholds i) : lo i < t ∧ t < hi i := by
  induction tree generalizing lo hi with
  | leaf value => exact absurd ht (by simp [thresholds])
  | node j s left right ihl ihr =>
      obtain ⟨hs, hleft, hright⟩ := h
      rcases mem_thresholds_node.1 ht with ⟨rfl, rfl⟩ | ht | ht
      · exact hs
      · obtain ⟨hlo, hhi⟩ := ihl hleft ht
        refine ⟨hlo, ?_⟩
        by_cases hij : i = j
        · subst hij
          rw [update_self] at hhi
          exact lt_trans hhi hs.2
        · rwa [update_of_ne _ _ hij] at hhi
      · obtain ⟨hlo, hhi⟩ := ihr hright ht
        refine ⟨?_, hhi⟩
        by_cases hij : i = j
        · subst hij
          rw [update_self] at hlo
          exact lt_trans hs.1 hlo
        · rwa [update_of_ne _ _ hij] at hlo

/-! ## Boxes -/

/-- A range of positions for some features. -/
abbrev Box (ι : Type*) := Dict ι (ℕ × ℕ)

/-- A vector of positions lies in a box when it lies in each of its ranges. -/
def InBox (x : ι → ℕ) (box : Box ι) : Prop := ∀ e ∈ box, e.2.1 ≤ x e.1 ∧ x e.1 ≤ e.2.2

instance (x : ι → ℕ) (box : Box ι) : Decidable (InBox x box) := by
  unfold InBox
  infer_instance

section Boxes

variable (pos : ι → α → ℕ) (top : ι → ℕ)

/-- The box after a step to the left, past threshold `t` of feature `i`. -/
def goLeft (box : Box ι) (i : ι) (t : α) : Box ι :=
  match box.get i with
  | none => box.set i (0, pos i t)
  | some r => box.set i (r.1, pos i t)

/-- The box after a step to the right. -/
def goRight (box : Box ι) (i : ι) (t : α) : Box ι :=
  match box.get i with
  | none => box.set i (pos i t + 1, top i)
  | some r => box.set i (pos i t + 1, r.2)

/-- The leaves with their boxes, from left to right. -/
def boxes : ThresholdTree ι α β → Box ι → List (β × Box ι)
  | leaf value, box => [(value, box)]
  | node i t left right, box =>
      left.boxes (goLeft pos box i t) ++ right.boxes (goRight pos top box i t)

variable {pos top}

/-- What holds of the empty path and is kept by every step holds of every box. -/
lemma forall_boxes {p : Box ι → Prop} {tree : ThresholdTree ι α β}
    (hl : ∀ i, ∀ t ∈ tree.thresholds i, ∀ box, p box → p (goLeft pos box i t))
    (hr : ∀ i, ∀ t ∈ tree.thresholds i, ∀ box, p box → p (goRight pos top box i t)) {box : Box ι}
    (hbox : p box) : ∀ r ∈ tree.boxes pos top box, p r.2 := by
  induction tree generalizing box with
  | leaf value =>
      intro r hr'
      rw [List.mem_singleton.1 hr']
      exact hbox
  | node i t left right ihl ihr =>
      intro r hr'
      rcases List.mem_append.1 hr' with hmem | hmem
      · refine ihl ?_ ?_ (hl i t mem_thresholds_root box hbox) r hmem
        · exact fun j s hs => hl j s (mem_thresholds_left hs)
        · exact fun j s hs => hr j s (mem_thresholds_left hs)
      · refine ihr ?_ ?_ (hr i t mem_thresholds_root box hbox) r hmem
        · exact fun j s hs => hl j s (mem_thresholds_right hs)
        · exact fun j s hs => hr j s (mem_thresholds_right hs)

/-- There is one box for each leaf. -/
lemma map_fst_boxes (tree : ThresholdTree ι α β) (box : Box ι) :
    (tree.boxes pos top box).map Prod.fst = tree.leafValues := by
  induction tree generalizing box with
  | leaf value => rfl
  | node i t left right ihl ihr => rw [boxes, List.map_append, ihl, ihr, leafValues]

/-- A box names every feature at most once, with positions up to the top. -/
def WellFormed (top : ι → ℕ) (box : Box ι) : Prop :=
  (box.map Prod.fst).Nodup ∧ ∀ e ∈ box, e.2.1 ≤ top e.1 ∧ e.2.2 ≤ top e.1

/-- The boxes of a tree are well-formed. -/
lemma wellFormed_boxes {tree : ThresholdTree ι α β}
    (htop : ∀ i, ∀ t ∈ tree.thresholds i, pos i t < top i) :
    ∀ r ∈ tree.boxes pos top [], WellFormed top r.2 := by
  have hset : ∀ (box : Box ι) i a b, a ≤ top i → b ≤ top i → WellFormed top box →
      WellFormed top (box.set i (a, b)) := by
    rintro box i a b ha hb ⟨hnodup, hbounds⟩
    refine ⟨Dict.nodup_set hnodup i _, ?_⟩
    intro e he
    rcases Dict.mem_set he with rfl | he
    · exact ⟨ha, hb⟩
    · exact hbounds e he
  refine forall_boxes ?_ ?_ ⟨List.nodup_nil, fun e he => absurd he List.not_mem_nil⟩
  · intro i t ht box hbox
    have hpos := htop i t ht
    unfold goLeft
    cases hget : box.get i with
    | none => exact hset box i _ _ (Nat.zero_le _) (by omega) hbox
    | some r => exact hset box i _ _ (hbox.2 _ (Dict.mem_of_get hget)).1 (by omega) hbox
  · intro i t ht box hbox
    have hpos := htop i t ht
    unfold goRight
    cases hget : box.get i with
    | none => exact hset box i _ _ hpos (Nat.le_refl _) hbox
    | some r => exact hset box i _ _ hpos (hbox.2 _ (Dict.mem_of_get hget)).2 hbox

/-- A range of the box contains the positions of all thresholds between the bounds. -/
def Respects [LT α] (S : ι → α → Prop) (pos : ι → α → ℕ) (lo hi : ι → α) (box : Box ι) : Prop :=
  ∀ i r, box.get i = some r → ∀ t, S i t → lo i < t → t < hi i → r.1 ≤ pos i t ∧ pos i t < r.2

variable [Preorder α] {S : ι → α → Prop} {lo hi : ι → α} {box : Box ι} {i : ι} {t : α} {x : ι → ℕ}

omit [Preorder α] in
private lemma get_goLeft_of_ne {j : ι} (h : j ≠ i) : (goLeft pos box i t).get j = box.get j := by
  unfold goLeft
  cases box.get i <;> exact Dict.get_set_of_ne _ _ h

omit [Preorder α] in
private lemma get_goRight_of_ne {j : ι} (h : j ≠ i) :
    (goRight pos top box i t).get j = box.get j := by
  unfold goRight
  cases box.get i <;> exact Dict.get_set_of_ne _ _ h

omit [Preorder α] in
/-- A step to the left keeps only the positions up to that of the threshold. -/
lemma inBox_goLeft (hbox : ∀ r, box.get i = some r → pos i t < r.2) :
    InBox x (goLeft pos box i t) ↔ InBox x box ∧ x i ≤ pos i t := by
  unfold goLeft InBox
  cases hget : box.get i with
  | none =>
      simp only []
      rw [Dict.forall_set_of_get_none hget]
      simp
  | some r =>
      have hr := hbox r hget
      simp only []
      refine Dict.forall_set_of_get_some hget (fun e => e.2.1 ≤ x e.1 ∧ x e.1 ≤ e.2.2) ?_
      show (r.1 ≤ x i ∧ x i ≤ pos i t) ↔ (r.1 ≤ x i ∧ x i ≤ r.2) ∧ x i ≤ pos i t
      constructor
      · rintro ⟨h1, h2⟩
        exact ⟨⟨h1, by omega⟩, h2⟩
      · rintro ⟨⟨h1, -⟩, h2⟩
        exact ⟨h1, h2⟩

omit [Preorder α] in
/-- A step to the right keeps only the positions above that of the threshold. -/
lemma inBox_goRight (hbox : ∀ r, box.get i = some r → r.1 ≤ pos i t) (hx : x i ≤ top i) :
    InBox x (goRight pos top box i t) ↔ InBox x box ∧ pos i t < x i := by
  unfold goRight InBox
  cases hget : box.get i with
  | none =>
      simp only []
      rw [Dict.forall_set_of_get_none hget]
      constructor
      · rintro ⟨hall, h1, -⟩
        exact ⟨hall, h1⟩
      · rintro ⟨hall, h1⟩
        exact ⟨hall, h1, hx⟩
  | some r =>
      have hr := hbox r hget
      simp only []
      refine Dict.forall_set_of_get_some hget (fun e => e.2.1 ≤ x e.1 ∧ x e.1 ≤ e.2.2) ?_
      show (pos i t + 1 ≤ x i ∧ x i ≤ r.2) ↔ (r.1 ≤ x i ∧ x i ≤ r.2) ∧ pos i t < x i
      constructor
      · rintro ⟨h1, h2⟩
        exact ⟨⟨by omega, h2⟩, h1⟩
      · rintro ⟨⟨-, h2⟩, h1⟩
        exact ⟨h1, h2⟩

/-- The range of the tested feature after a step to the left, and of all the others. -/
private lemma respects_goLeft (hmono : ∀ i s t, S i s → S i t → s < t → pos i s < pos i t)
    (hbox : Respects S pos lo hi box) (ht : S i t) (hhi : t < hi i) :
    Respects S pos lo (update hi i t) (goLeft pos box i t) := by
  intro j r hr s hs hlo hlt
  by_cases hji : j = i
  · subst hji
    rw [update_self] at hlt
    have hpos : pos j s < pos j t := hmono j s t hs ht hlt
    unfold goLeft at hr
    cases hget : box.get j with
    | none =>
        simp only [hget, Dict.get_set_self, Option.some.injEq] at hr
        subst hr
        exact ⟨Nat.zero_le _, hpos⟩
    | some q =>
        simp only [hget, Dict.get_set_self, Option.some.injEq] at hr
        subst hr
        exact ⟨(hbox j q hget s hs hlo (lt_trans hlt hhi)).1, hpos⟩
  · rw [update_of_ne _ _ hji] at hlt
    rw [get_goLeft_of_ne hji] at hr
    exact hbox j r hr s hs hlo hlt

private lemma respects_goRight (hmono : ∀ i s t, S i s → S i t → s < t → pos i s < pos i t)
    (htop : ∀ i t, S i t → pos i t < top i) (hbox : Respects S pos lo hi box) (ht : S i t)
    (hlo : lo i < t) : Respects S pos (update lo i t) hi (goRight pos top box i t) := by
  intro j r hr s hs hlt hhi
  by_cases hji : j = i
  · subst hji
    rw [update_self] at hlt
    have hpos : pos j t < pos j s := hmono j t s ht hs hlt
    unfold goRight at hr
    cases hget : box.get j with
    | none =>
        simp only [hget, Dict.get_set_self, Option.some.injEq] at hr
        subst hr
        exact ⟨hpos, htop j s hs⟩
    | some q =>
        simp only [hget, Dict.get_set_self, Option.some.injEq] at hr
        subst hr
        exact ⟨hpos, (hbox j q hget s hs (lt_trans hlo hlt) hhi).2⟩
  · rw [update_of_ne _ _ hji] at hlt
    rw [get_goRight_of_ne hji] at hr
    exact hbox j r hr s hs hlt hhi

/-- The ranges of the boxes of a tight tree end no earlier than they start. -/
theorem ordered_boxes (hmono : ∀ i s t, S i s → S i t → s < t → pos i s < pos i t)
    (htop : ∀ i t, S i t → pos i t < top i) {tree : ThresholdTree ι α β}
    (hS : ∀ i, ∀ t ∈ tree.thresholds i, S i t) (htight : tree.Tight lo hi)
    (hbox : Respects S pos lo hi box) (hordered : ∀ e ∈ box, e.2.1 ≤ e.2.2) :
    ∀ r ∈ tree.boxes pos top box, ∀ e ∈ r.2, e.2.1 ≤ e.2.2 := by
  have hset : ∀ (box : Box ι) i a b, a ≤ b → (∀ e ∈ box, e.2.1 ≤ e.2.2) →
      ∀ e ∈ box.set i (a, b), e.2.1 ≤ e.2.2 := by
    intro box i a b hab hbox e he
    rcases Dict.mem_set he with rfl | he
    · exact hab
    · exact hbox e he
  induction tree generalizing lo hi box with
  | leaf value =>
      intro r hr
      rw [List.mem_singleton.1 hr]
      exact hordered
  | node i t left right ihl ihr =>
      obtain ⟨⟨hlo, hhi⟩, hleft, hright⟩ := htight
      have ht : S i t := hS i t mem_thresholds_root
      have hrange : ∀ r, box.get i = some r → r.1 ≤ pos i t ∧ pos i t < r.2 :=
        fun r hr => hbox i r hr t ht hlo hhi
      have hgoLeft : ∀ e ∈ goLeft pos box i t, e.2.1 ≤ e.2.2 := by
        unfold goLeft
        cases hget : box.get i with
        | none => exact hset box i _ _ (Nat.zero_le _) hordered
        | some r => exact hset box i _ _ (hrange r hget).1 hordered
      have hgoRight : ∀ e ∈ goRight pos top box i t, e.2.1 ≤ e.2.2 := by
        unfold goRight
        cases hget : box.get i with
        | none => exact hset box i _ _ (htop i t ht) hordered
        | some r => exact hset box i _ _ (hrange r hget).2 hordered
      intro r hr
      rcases List.mem_append.1 hr with hr | hr
      · exact ihl (fun j s hs => hS j s (mem_thresholds_left hs)) hleft
          (respects_goLeft hmono hbox ht hhi) hgoLeft r hr
      · exact ihr (fun j s hs => hS j s (mem_thresholds_right hs)) hright
          (respects_goRight hmono htop hbox ht hlo) hgoRight r hr

/-! ## The highest position

Going right whenever there is a choice keeps the last position of a feature in its range.
-/

omit [Preorder α] in
private lemma exists_box_top_of_get (tree : ThresholdTree ι α β) {a : ℕ}
    (hget : box.get i = some (a, top i)) :
    ∃ r ∈ tree.boxes pos top box, ∃ a, (i, a, top i) ∈ r.2 := by
  induction tree generalizing box a with
  | leaf value => exact ⟨_, List.mem_singleton_self _, a, Dict.mem_of_get hget⟩
  | node j t left right _ ihr =>
      have hright : ∃ a, (goRight pos top box j t).get i = some (a, top i) := by
        by_cases hij : i = j
        · subst hij
          refine ⟨pos i t + 1, ?_⟩
          simp only [goRight, hget, Dict.get_set_self]
        · exact ⟨a, (get_goRight_of_ne hij).trans hget⟩
      obtain ⟨b, hb⟩ := hright
      obtain ⟨r, hr, hmem⟩ := ihr hb
      exact ⟨r, List.mem_append_right _ hr, hmem⟩

omit [Preorder α] in
/-- The range of a tested feature reaches up to its last position in some box. -/
lemma exists_box_top (pos : ι → α → ℕ) (top : ι → ℕ) {tree : ThresholdTree ι α β}
    (hget : box.get i = none) (htested : t ∈ tree.thresholds i) :
    ∃ r ∈ tree.boxes pos top box, ∃ a, (i, a, top i) ∈ r.2 := by
  induction tree generalizing box with
  | leaf value => exact absurd htested (by simp [thresholds])
  | node j s left right ihl ihr =>
      by_cases hij : i = j
      · subst hij
        have hright : (goRight pos top box i s).get i = some (pos i s + 1, top i) := by
          simp only [goRight, hget, Dict.get_set_self]
        obtain ⟨r, hr, hmem⟩ := exists_box_top_of_get right hright
        exact ⟨r, List.mem_append_right _ hr, hmem⟩
      · rcases mem_thresholds_node.1 htested with ⟨hji, -⟩ | ht | ht
        · exact absurd hji.symm hij
        · obtain ⟨r, hr, hmem⟩ := ihl ((get_goLeft_of_ne hij).trans hget) ht
          exact ⟨r, List.mem_append_left _ hr, hmem⟩
        · obtain ⟨r, hr, hmem⟩ := ihr ((get_goRight_of_ne hij).trans hget) ht
          exact ⟨r, List.mem_append_right _ hr, hmem⟩

/-- **The boxes of a tree partition its positions.**  Of the boxes below a box `box`, a vector in
`box` lies in exactly one, that of the leaf it evaluates to, and a vector outside in none.  Only the
positions of tested features count. -/
theorem filter_boxes (hmono : ∀ i s t, S i s → S i t → s < t → pos i s < pos i t)
    (htop : ∀ i t, S i t → pos i t < top i) {tree : ThresholdTree ι α β}
    (hS : ∀ i, ∀ t ∈ tree.thresholds i, S i t) (htight : tree.Tight lo hi)
    (hbox : Respects S pos lo hi box) (hx : ∀ i, ∀ t ∈ tree.thresholds i, x i ≤ top i) :
    ((tree.boxes pos top box).filter fun r => InBox x r.2).map Prod.fst =
      if InBox x box then [tree.eval fun i t => decide (x i ≤ pos i t)] else [] := by
  induction tree generalizing lo hi box with
  | leaf value =>
      simp only [boxes, eval]
      by_cases h : InBox x box
      · rw [if_pos h, List.filter_cons_of_pos (by simpa using h), List.filter_nil]
        rfl
      · rw [if_neg h, List.filter_cons_of_neg (by simpa using h), List.filter_nil]
        rfl
  | node i t left right ihl ihr =>
      obtain ⟨⟨hlo, hhi⟩, hleft, hright⟩ := htight
      have ht : S i t := hS i t mem_thresholds_root
      have hleaves_left := ihl (fun j s hs => hS j s (mem_thresholds_left hs)) hleft
        (respects_goLeft hmono hbox ht hhi) fun j s hs => hx j s (mem_thresholds_left hs)
      have hleaves_right := ihr (fun j s hs => hS j s (mem_thresholds_right hs)) hright
        (respects_goRight hmono htop hbox ht hlo) fun j s hs => hx j s (mem_thresholds_right hs)
      have hrange : ∀ r, box.get i = some r → r.1 ≤ pos i t ∧ pos i t < r.2 :=
        fun r hr => hbox i r hr t ht hlo hhi
      have hl := inBox_goLeft (x := x) (fun r hr => (hrange r hr).2)
      have hr := inBox_goRight (x := x) (fun r hr => (hrange r hr).1)
        (hx i t mem_thresholds_root)
      rw [boxes, List.filter_append, List.map_append, hleaves_left, hleaves_right]
      -- The two halves split the box at the position of the threshold.
      by_cases hin : InBox x box
      · by_cases hside : x i ≤ pos i t
        · have hnot : ¬ InBox x (goRight pos top box i t) := by
            rw [hr]
            rintro ⟨-, hgt⟩
            omega
          rw [if_pos (hl.2 ⟨hin, hside⟩), if_neg hnot, if_pos hin]
          simp [eval, hside]
        · have hnot : ¬ InBox x (goLeft pos box i t) := by
            rw [hl]
            rintro ⟨-, hle⟩
            exact hside hle
          rw [if_neg hnot, if_pos (hr.2 ⟨hin, by omega⟩), if_pos hin]
          simp [eval, hside]
      · have hnotl : ¬ InBox x (goLeft pos box i t) := by
          rw [hl]
          exact fun h => hin h.1
        have hnotr : ¬ InBox x (goRight pos top box i t) := by
          rw [hr]
          exact fun h => hin h.1
        rw [if_neg hnotl, if_neg hnotr, if_neg hin]
        rfl

end Boxes
end ThresholdTree
end FlowClassifier
