import FlowClassifier.Controller.TreeRules

/-!
# The tree as it is stored

`dum2Cond.py` is given a tree in five arrays, one place for each node: the numbers of its two
children, the feature it tests, the threshold and the class weights.  A leaf tests the feature
`-2` and has `-1` for its children.  The two traversals go from number to number.

Which tree the arrays hold at a node does not depend on how its nodes are numbered (`Holds`).  The
traversals of the arrays end exactly when they may descend deeper than this tree, and then they do
what the traversals of the tree do (`getFeatsRecAt_of_holds`, `writeRulesRecAt_of_holds`).
-/

namespace FlowClassifier

open Text

/-! ## The program -/

/-- `MODEL_LD.tree_`. -/
structure TreeArrays where
  childrenLeft : List ℤ
  childrenRight : List ℤ
  feature : List ℤ
  threshold : List ℚ
  value : List (ℚ × ℚ)

/-- `l[i]`: a negative index counts from the end. -/
def pyGet {α : Type*} (l : List α) (i : ℤ) : Option α :=
  if 0 ≤ i then l[i.toNat]?
  else if 0 ≤ i + l.length then l[(i + l.length).toNat]? else none

/-- One of the twelve features. -/
def featOfInt (ft : ℤ) : Option (Fin 12) :=
  if h : 0 ≤ ft ∧ ft.toNat < 12 then some ⟨ft.toNat, h.2⟩ else none

/-- `Get_Feats_Rec`, with a bound on the depth of the recursion. -/
def getFeatsRecAt (a : TreeArrays) :
    ℕ → ℤ → Dict (Fin 12) (List ℚ) → Option (Dict (Fin 12) (List ℚ))
  | 0, _, _ => none
  | depth + 1, currId, dicoFtsThr => do
      -- Not leaf node
      if 0 ≤ (← pyGet a.feature currId) then
        let ft ← (pyGet a.feature currId).bind featOfInt
        let thr ← pyGet a.threshold currId
        let dicoFtsThr := if (dicoFtsThr.get ft).isNone then dicoFtsThr.set ft [] else dicoFtsThr
        let dicoFtsThr := dicoFtsThr.set ft ((dicoFtsThr.get ft).getD [] ++ [thr])
        -- Left Tree : True
        let left ← pyGet a.childrenLeft currId
        let dicoFtsThr ←
          if left ≠ -1 then getFeatsRecAt a depth left dicoFtsThr else some dicoFtsThr
        -- Right Tree : False
        let right ← pyGet a.childrenRight currId
        if right ≠ -1 then getFeatsRecAt a depth right dicoFtsThr else some dicoFtsThr
      else some dicoFtsThr

/-- `Write_Rules_Rec`, with a bound on the depth of the recursion. -/
def writeRulesRecAt (a : TreeArrays) (dicoFtsThr : Dict (Fin 12) (List ℚ)) :
    ℕ → ℤ → Dict (Fin 12) (ℕ × ℕ) → List Char → Option (Dict (Fin 12) (ℕ × ℕ) × List Char)
  | 0, _, _, _ => none
  | depth + 1, currId, dicoFtsInds, fil => do
      -- Not leaf node
      if 0 ≤ (← pyGet a.feature currId) then
        let ft ← (pyGet a.feature currId).bind featOfInt
        let thr ← pyGet a.threshold currId
        let thrs ← dicoFtsThr.get ft
        let newInd ← listIndex thrs thr
        -- Left Tree : True (<=)
        let left ← pyGet a.childrenLeft currId
        let (dicoFtsInds, fil) ←
          if left ≠ -1 then do
            let save := dicoFtsInds.get ft
            let inds :=
              match save with
              | none => dicoFtsInds.set ft (0, newInd)
              | some r => dicoFtsInds.set ft (r.1, newInd)
            let (inds, fil) ← writeRulesRecAt a dicoFtsThr depth left inds fil
            some (match save with | none => inds.del ft | some r => inds.set ft r, fil)
          else some (dicoFtsInds, fil)
        -- Right Tree : False (>)
        let right ← pyGet a.childrenRight currId
        if right ≠ -1 then do
          let save := dicoFtsInds.get ft
          let inds :=
            match save with
            | none => dicoFtsInds.set ft (newInd + 1, thrs.length - 1)
            | some r => dicoFtsInds.set ft (newInd + 1, r.2)
          let (inds, fil) ← writeRulesRecAt a dicoFtsThr depth right inds fil
          some (match save with | none => inds.del ft | some r => inds.set ft r, fil)
        else some (dicoFtsInds, fil)
      -- Leaf node : write Action Rule
      else
        let tab ← pyGet a.value currId
        some (dicoFtsInds, fil ++ exportActionRule (isCG tab) dicoFtsInds)

/-- `FTS_THRS` after the first pass. -/
def ftsThrsAt (a : TreeArrays) (depth : ℕ) : Option (Dict (Fin 12) (List ℚ)) :=
  (getFeatsRecAt a depth 0 []).map sortFeatsThresh

/-- `ACT_Ruls.csv`. -/
def actRulsCsvAt (a : TreeArrays) (depth : ℕ) : Option (List Char) := do
  let thrs ← ftsThrsAt a depth
  (writeRulesRecAt a thrs depth 0 [] []).map Prod.snd

/-- `FTR_Ruls.csv`. -/
def ftrRulsCsvAt (a : TreeArrays) (depth : ℕ) : Option (List Char) :=
  (ftsThrsAt a depth).map writeFeatureRules

/-! ## The tree they hold -/

/-- The tree that starts at a node. -/
def treeAt (a : TreeArrays) : ℕ → ℤ → Option Tree
  | 0, _ => none
  | depth + 1, currId => do
      if 0 ≤ (← pyGet a.feature currId) then
        let ft ← (pyGet a.feature currId).bind featOfInt
        let thr ← pyGet a.threshold currId
        let left ← pyGet a.childrenLeft currId
        let right ← pyGet a.childrenRight currId
        if left = -1 ∨ right = -1 then none
        else
          let leftTree ← treeAt a depth left
          let rightTree ← treeAt a depth right
          some (.node ft thr leftTree rightTree)
      else (pyGet a.value currId).map .leaf

/-- The places of an inner node. -/
structure TreeArrays.Inner (a : TreeArrays) (currId : ℤ) (ft : Fin 12) (thr : ℚ)
    (left right : ℤ) : Prop where
  feature : pyGet a.feature currId = some (ft.val : ℤ)
  threshold : pyGet a.threshold currId = some thr
  childrenLeft : pyGet a.childrenLeft currId = some left
  childrenRight : pyGet a.childrenRight currId = some right
  left_ne : left ≠ -1
  right_ne : right ≠ -1

/-- The places of a leaf. -/
structure TreeArrays.Leaf (a : TreeArrays) (currId : ℤ) (value : ℚ × ℚ) : Prop where
  feature : ∃ ft, pyGet a.feature currId = some ft ∧ ft < 0
  value : pyGet a.value currId = some value

lemma featOfInt_eq_some_iff {ft : ℤ} {f : Fin 12} : featOfInt ft = some f ↔ ft = f.val := by
  unfold featOfInt
  constructor
  · intro h
    split at h
    · rename_i hft
      have hval := congrArg Fin.val (Option.some.inj h)
      simp only at hval
      omega
    · exact absurd h (by simp)
  · rintro rfl
    simp [f.isLt]

/-- The arrays hold a tree at a node.  Its nodes may have any numbers, and two of its subtrees may
be the same nodes. -/
inductive TreeArrays.Holds (a : TreeArrays) : ℤ → Tree → Prop
  | leaf {currId : ℤ} {value : ℚ × ℚ} (h : a.Leaf currId value) : Holds a currId (.leaf value)
  | node {currId : ℤ} {ft : Fin 12} {thr : ℚ} {left right : ℤ} {leftTree rightTree : Tree}
      (h : a.Inner currId ft thr left right) (hleft : Holds a left leftTree)
      (hright : Holds a right rightTree) : Holds a currId (.node ft thr leftTree rightTree)

variable {a : TreeArrays} {currId : ℤ} {tree : Tree}

lemma treeAt_of_holds (h : a.Holds currId tree) (depth : ℕ) :
    treeAt a depth currId = if tree.height < depth then some tree else none := by
  induction h generalizing depth with
  | @leaf currId value h =>
      obtain ⟨⟨feat, hfeat, hneg⟩, hvalue⟩ := h
      cases depth with
      | zero => rfl
      | succ depth =>
          have hdepth : (ThresholdTree.leaf value : Tree).height < depth + 1 := Nat.succ_pos depth
          rw [if_pos hdepth]
          simp only [treeAt, hfeat, hvalue, Option.bind_eq_bind, Option.bind_some,
            if_neg (not_le.2 hneg), Option.map_some]
  | @node currId ft thr left right leftTree rightTree h hleft hright ihl ihr =>
      cases depth with
      | zero => rfl
      | succ depth =>
          have hft : (0 : ℤ) ≤ ft.val := by omega
          have hne : ¬ (left = -1 ∨ right = -1) := not_or.2 ⟨h.left_ne, h.right_ne⟩
          simp only [treeAt, h.feature, h.threshold, h.childrenLeft, h.childrenRight,
            Option.bind_eq_bind, Option.bind_some, if_pos hft, featOfInt_eq_some_iff.2 rfl,
            if_neg hne, ihl, ihr, ThresholdTree.height_node_lt_succ_iff]
          by_cases hl : leftTree.height < depth
          · by_cases hr : rightTree.height < depth
            · simp only [hl, hr, if_true, Option.bind_some, and_self]
            · simp only [hl, hr, if_true, if_false, Option.bind_some, Option.bind_none, and_false]
          · simp only [hl, if_false, Option.bind_none, false_and]

/-! ## The traversals -/

/-- `Get_Feats_Rec` on the arrays is that on the tree. -/
lemma getFeatsRecAt_of_holds (h : a.Holds currId tree) (depth : ℕ)
    (d : Dict (Fin 12) (List ℚ)) :
    getFeatsRecAt a depth currId d =
      if tree.height < depth then some (getFeatsRec tree d) else none := by
  induction h generalizing depth d with
  | @leaf currId value h =>
      obtain ⟨⟨feat, hfeat, hneg⟩, -⟩ := h
      cases depth with
      | zero => rfl
      | succ depth =>
          have hdepth : (ThresholdTree.leaf value : Tree).height < depth + 1 := Nat.succ_pos depth
          rw [if_pos hdepth]
          simp only [getFeatsRecAt, hfeat, Option.bind_eq_bind, Option.bind_some,
            if_neg (not_le.2 hneg), getFeatsRec]
  | @node currId ft thr left right leftTree rightTree h hleft hright ihl ihr =>
      cases depth with
      | zero => rfl
      | succ depth =>
          have hft : (0 : ℤ) ≤ ft.val := by omega
          simp only [getFeatsRecAt, h.feature, h.threshold, h.childrenLeft, h.childrenRight,
            Option.bind_eq_bind, Option.bind_some, if_pos hft, featOfInt_eq_some_iff.2 rfl,
            if_pos h.left_ne, if_pos h.right_ne, ihl, ihr, getFeatsRec,
            ThresholdTree.height_node_lt_succ_iff]
          by_cases hl : leftTree.height < depth
          · simp only [hl, if_true, Option.bind_some, true_and]
          · simp only [hl, if_false, Option.bind_none, false_and]

/-- `Write_Rules_Rec` on the arrays is that on the tree. -/
lemma writeRulesRecAt_of_holds (h : a.Holds currId tree) (thrs : Dict (Fin 12) (List ℚ))
    (depth : ℕ) (inds : Dict (Fin 12) (ℕ × ℕ)) (fil : List Char) :
    writeRulesRecAt a thrs depth currId inds fil =
      if tree.height < depth then writeRulesRec thrs tree inds fil else none := by
  induction h generalizing depth inds fil with
  | @leaf currId value h =>
      obtain ⟨⟨feat, hfeat, hneg⟩, hvalue⟩ := h
      cases depth with
      | zero => rfl
      | succ depth =>
          have hdepth : (ThresholdTree.leaf value : Tree).height < depth + 1 := Nat.succ_pos depth
          rw [if_pos hdepth]
          simp only [writeRulesRecAt, hfeat, hvalue, Option.bind_eq_bind, Option.bind_some,
            if_neg (not_le.2 hneg), writeRulesRec]
  | @node currId ft thr left right leftTree rightTree h hleft hright ihl ihr =>
      cases depth with
      | zero => rfl
      | succ depth =>
          have hft : (0 : ℤ) ≤ ft.val := by omega
          simp only [writeRulesRecAt, h.feature, h.threshold, h.childrenLeft, h.childrenRight,
            Option.bind_eq_bind, Option.bind_some, if_pos hft, featOfInt_eq_some_iff.2 rfl,
            if_pos h.left_ne, if_pos h.right_ne, ihl, ihr, ThresholdTree.height_node_lt_succ_iff]
          by_cases hl : leftTree.height < depth
          · by_cases hr : rightTree.height < depth
            · simp only [hl, hr, if_true, and_self]
              rfl
            · simp only [hl, hr, if_true, if_false, Option.bind_none, and_false,
                Option.bind_fun_none]
          · simp only [hl, if_false, Option.bind_none, false_and, Option.bind_fun_none]

/-! ## Reading -/

lemma pyGet_natCast {α : Type*} (l : List α) (i : ℕ) : pyGet l (i : ℤ) = l[i]? := by
  rw [pyGet, if_pos (Int.natCast_nonneg i), Int.toNat_natCast]

end FlowClassifier
