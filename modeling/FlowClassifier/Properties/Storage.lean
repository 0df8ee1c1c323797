import FlowClassifier.Controller.TreeArrays
import FlowClassifier.Properties.Compile

/-!
# Stored trees

How the nodes of a tree are numbered does not matter: from any arrays that hold it `dum2Cond.py`
writes the files of the tree, and it needs to descend no deeper than the tree (`csv_of_holds`).

The arrays of a trained tree come from growing it: a node gets its number before its children get
theirs.  Arrays of this kind always hold a tree (`csv_of_arrays`).
-/

namespace FlowClassifier

variable {a : TreeArrays} {tree : Tree}

/-! ## Arrays that hold a tree -/

lemma ftsThrsAt_of_holds (h : a.Holds 0 tree) (depth : ℕ) :
    ftsThrsAt a depth = if tree.height < depth then some (ftsThrs tree) else none := by
  rw [ftsThrsAt, getFeatsRecAt_of_holds h]
  by_cases hdepth : tree.height < depth
  · rw [if_pos hdepth, if_pos hdepth, Option.map_some, ftsThrs]
  · rw [if_neg hdepth, if_neg hdepth, Option.map_none]

lemma ftrRulsCsvAt_of_holds (h : a.Holds 0 tree) (depth : ℕ) :
    ftrRulsCsvAt a depth = if tree.height < depth then some (ftrRulsCsv tree) else none := by
  rw [ftrRulsCsvAt, ftsThrsAt_of_holds h]
  by_cases hdepth : tree.height < depth
  · rw [if_pos hdepth, if_pos hdepth, Option.map_some, ftrRulsCsv]
  · rw [if_neg hdepth, if_neg hdepth, Option.map_none]

lemma actRulsCsvAt_of_holds (h : a.Holds 0 tree) (depth : ℕ) :
    actRulsCsvAt a depth = if tree.height < depth then actRulsCsv tree else none := by
  rw [actRulsCsvAt, ftsThrsAt_of_holds h]
  by_cases hdepth : tree.height < depth
  · rw [if_pos hdepth, if_pos hdepth, Option.bind_eq_bind, Option.bind_some,
      writeRulesRecAt_of_holds h, if_pos hdepth, actRulsCsv]
  · rw [if_neg hdepth, if_neg hdepth, Option.bind_eq_bind, Option.bind_none]

/-- **The files do not depend on the numbers of the nodes.**  From arrays that hold a tree, in any
order and with any of its subtrees shared, both files are written exactly when the recursion may
descend deeper than the tree, and they are the files of the tree. -/
theorem csv_of_holds (h : a.Holds 0 tree) (depth : ℕ) :
    (tree.height < depth → ∃ act, actRulsCsv tree = some act ∧
      ftrRulsCsvAt a depth = some (ftrRulsCsv tree) ∧ actRulsCsvAt a depth = some act) ∧
    (depth ≤ tree.height → ftrRulsCsvAt a depth = none ∧ actRulsCsvAt a depth = none) := by
  rw [ftrRulsCsvAt_of_holds h, actRulsCsvAt_of_holds h]
  constructor
  · intro hdepth
    rw [if_pos hdepth, if_pos hdepth]
    exact ⟨_, actRulsCsv_leaves tree, rfl, actRulsCsv_leaves tree⟩
  · intro hdepth
    rw [if_neg (not_lt.2 hdepth), if_neg (not_lt.2 hdepth)]
    exact ⟨rfl, rfl⟩

/-- The second test is stored after its leaves, one of which is also a leaf of the first. -/
theorem csv_of_holds_shared_leaf :
    let a : TreeArrays := ⟨[3, -1, -1, 1], [1, -1, -1, 2], [5, -2, -2, 5], [100, -2, -2, 50],
      [(3, 4), (3, 0), (0, 4), (3, 4)]⟩
    let tree : Tree := .node 5 100 (.node 5 50 (.leaf (3, 0)) (.leaf (0, 4))) (.leaf (3, 0))
    (∃ act, actRulsCsv tree = some act ∧
      ftrRulsCsvAt a 3 = some (ftrRulsCsv tree) ∧ actRulsCsvAt a 3 = some act) ∧
    ftrRulsCsvAt a 2 = none ∧ actRulsCsvAt a 2 = none := by
  intro a tree
  have hshared : a.Holds 1 (.leaf (3, 0)) := .leaf ⟨⟨-2, rfl, by decide⟩, rfl⟩
  have hright : a.Holds 2 (.leaf (0, 4)) := .leaf ⟨⟨-2, rfl, by decide⟩, rfl⟩
  have hleft : a.Holds 3 (.node 5 50 (.leaf (3, 0)) (.leaf (0, 4))) :=
    .node ⟨rfl, rfl, rfl, rfl, by decide, by decide⟩ hshared hright
  have hroot : a.Holds 0 tree :=
    .node ⟨rfl, rfl, rfl, rfl, by decide, by decide⟩ hleft hshared
  exact ⟨(csv_of_holds hroot 3).1 (by decide), (csv_of_holds hroot 2).2 (by decide)⟩

/-! ## Grown trees -/

/-- Every inner node tests one of the twelve features and is stored before its children. -/
structure TreeArrays.Grown (a : TreeArrays) : Prop where
  nonempty : 0 < a.feature.length
  threshold_length : a.threshold.length = a.feature.length
  value_length : a.value.length = a.feature.length
  inner : ∀ (i : ℕ) ft, a.feature[i]? = some ft → 0 ≤ ft → ft < 12 ∧ ∃ left right : ℕ,
    a.childrenLeft[i]? = some (left : ℤ) ∧ a.childrenRight[i]? = some (right : ℤ) ∧
      i < left ∧ left < a.feature.length ∧ i < right ∧ right < a.feature.length

lemma TreeArrays.Grown.exists_inner (ha : a.Grown) {i : ℕ} {ft : ℤ}
    (hfeat : a.feature[i]? = some ft) (hft : 0 ≤ ft) :
    ∃ (f : Fin 12) (thr : ℚ) (left right : ℕ), a.Inner i f thr left right ∧
      i < left ∧ left < a.feature.length ∧ i < right ∧ right < a.feature.length := by
  obtain ⟨hlt, left, right, hleft, hright, hbounds⟩ := ha.inner i ft hfeat hft
  have hi : i < a.threshold.length := by
    rw [ha.threshold_length]
    exact (List.getElem?_eq_some_iff.1 hfeat).1
  have hnum : ((⟨ft.toNat, by omega⟩ : Fin 12).val : ℤ) = ft := Int.toNat_of_nonneg hft
  refine ⟨⟨ft.toNat, by omega⟩, a.threshold[i], left, right, ⟨?_, ?_, ?_, ?_, by omega, by omega⟩,
    hbounds⟩
  · rw [pyGet_natCast, hfeat, hnum]
  · rw [pyGet_natCast, List.getElem?_eq_getElem hi]
  · rw [pyGet_natCast, hleft]
  · rw [pyGet_natCast, hright]

/-- From a node there are only the nodes after it to descend to. -/
lemma TreeArrays.Grown.exists_holds (ha : a.Grown) {i : ℕ} (hi : i < a.feature.length) :
    ∃ tree, a.Holds i tree ∧ i + tree.height < a.feature.length := by
  induction hrest : a.feature.length - i using Nat.strong_induction_on generalizing i with
  | h rest ih =>
      have hfeat : a.feature[i]? = some a.feature[i] := List.getElem?_eq_getElem hi
      by_cases hneg : a.feature[i] < 0
      · have hvalue : i < a.value.length := by
          rw [ha.value_length]
          exact hi
        refine ⟨.leaf a.value[i], .leaf ⟨⟨_, by rw [pyGet_natCast, hfeat], hneg⟩, ?_⟩, hi⟩
        rw [pyGet_natCast, List.getElem?_eq_getElem hvalue]
      · obtain ⟨f, thr, left, right, hnode, hil, hl, hir, hr⟩ :=
          ha.exists_inner hfeat (not_lt.1 hneg)
        obtain ⟨leftTree, hleft, hltHeight⟩ := ih _ (by omega) hl rfl
        obtain ⟨rightTree, hright, hrtHeight⟩ := ih _ (by omega) hr rfl
        refine ⟨_, .node hnode hleft hright, ?_⟩
        rw [ThresholdTree.height]
        omega

/-- **The files of a stored tree.**  Arrays whose children come after their parents hold a tree, and
with any depth from the number of nodes on, the two traversals of the arrays end and write the files
of that tree. -/
theorem csv_of_arrays (ha : a.Grown) :
    ∃ tree act, actRulsCsv tree = some act ∧ ∀ depth, a.feature.length ≤ depth →
      treeAt a depth 0 = some tree ∧ ftrRulsCsvAt a depth = some (ftrRulsCsv tree) ∧
        actRulsCsvAt a depth = some act := by
  obtain ⟨tree, htree, hheight⟩ := ha.exists_holds ha.nonempty
  rw [Nat.cast_zero] at htree
  refine ⟨tree, _, actRulsCsv_leaves tree, fun depth hdepth => ?_⟩
  have hdeeper : tree.height < depth := by omega
  rw [treeAt_of_holds htree, ftrRulsCsvAt_of_holds htree, actRulsCsvAt_of_holds htree,
    if_pos hdeeper, if_pos hdeeper, if_pos hdeeper]
  exact ⟨rfl, rfl, actRulsCsv_leaves tree⟩

/-- One test, in the arrays as they are kept. -/
theorem csv_of_arrays_one_test :
    let a : TreeArrays := ⟨[1, -1, -1], [2, -1, -1], [5, -2, -2], [100, -2, -2],
      [(3, 4), (3, 0), (0, 4)]⟩
    ∃ tree act, actRulsCsv tree = some act ∧ ∀ depth, a.feature.length ≤ depth →
      treeAt a depth 0 = some tree ∧ ftrRulsCsvAt a depth = some (ftrRulsCsv tree) ∧
        actRulsCsvAt a depth = some act := by
  intro a
  have ha : a.Grown := by
    refine ⟨by decide, rfl, rfl, fun i ft h hft => ?_⟩
    match i with
    | 0 =>
        obtain rfl := Option.some.inj h
        exact ⟨by decide, 1, 2, rfl, rfl, by decide, by decide, by decide, by decide⟩
    | 1 | 2 =>
        obtain rfl := Option.some.inj h
        exact absurd hft (by decide)
    | i + 3 => exact absurd h (by simp [a])
  exact csv_of_arrays ha

end FlowClassifier
