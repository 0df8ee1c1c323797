import Mathlib.Data.List.Sort
import Mathlib.Data.Rat.Floor
import FlowClassifier.Framework.Cells
import FlowClassifier.Framework.Text
import FlowClassifier.Framework.ThresholdTree

/-!
# Compiling the decision tree to rule files

`dum2Cond.py`: a trained tree becomes two comma-separated files.  `FTR_Ruls.csv` has one row per
tested feature, the feature's number followed by its thresholds in increasing order between 0 and
the bound `FTS_MAX` of the feature, all truncated to integers.  `ACT_Ruls.csv` has one row per leaf,
the class followed by a range of threshold indexes for every feature tested on the path.

The rows of the second file come from a traversal that keeps the ranges of the current path in one
dictionary and restores it on the way up.  `writeRulesRec_eq` says that it does restore it, and
that the rows written are those of the boxes of the tree (`Framework/ThresholdTree.lean`) over the
positions of the thresholds in their sorted lists.
-/

namespace FlowClassifier

open Text

/-! ## The program -/

/-- A trained tree, with the two class weights in its leaves. -/
abbrev Tree := ThresholdTree (Fin 12) ℚ (ℚ × ℚ)

/-- `FTS_MAX`. -/
def ftsMax : Fin 12 → ℕ
  | 0 => 2 ^ 12 - 1
  | 1 => 2 ^ 20 - 1
  | 2 => 2 ^ 14 - 1
  | 3 => 2 ^ 28 - 1
  | 4 => 2 ^ 19 - 1
  | 5 => 2 ^ 9 - 1
  | 6 => 2 ^ 10 - 1
  | 7 => 2 ^ 19 - 1
  | 8 => 2 ^ 15 - 1
  | 9 => 2 ^ 28 - 1
  | 10 => 2 ^ 17 - 1
  | 11 => 2 ^ 8 - 1

/-- `Get_Feats_Rec`. -/
def getFeatsRec : Tree → Dict (Fin 12) (List ℚ) → Dict (Fin 12) (List ℚ)
  | .leaf _, dicoFtsThr => dicoFtsThr
  | .node ft thr left right, dicoFtsThr =>
      let dicoFtsThr := if (dicoFtsThr.get ft).isNone then dicoFtsThr.set ft [] else dicoFtsThr
      let dicoFtsThr := dicoFtsThr.set ft ((dicoFtsThr.get ft).getD [] ++ [thr])
      getFeatsRec right (getFeatsRec left dicoFtsThr)

/-- The new value of a key in `Sort_Feats_Thresh`. -/
def sortThresh (k : Fin 12) (v : List ℚ) : List ℚ :=
  0 :: v.insertionSort (· ≤ ·) ++ [(ftsMax k : ℚ)]

/-- `Sort_Feats_Thresh`. -/
def sortFeatsThresh (dicoDat : Dict (Fin 12) (List ℚ)) : Dict (Fin 12) (List ℚ) :=
  dicoDat.map fun e => (e.1, sortThresh e.1 e.2)

/-- `Export_Action_Rule`. -/
def exportActionRule (typ : Bool) (dicoConds : Dict (Fin 12) (ℕ × ℕ)) : List Char :=
  let lin := Nat.toDigits 10 typ.toNat ++ [',']
  let lin := lin ++ dicoConds.flatMap fun e =>
    Nat.toDigits 10 e.1 ++ [','] ++ Nat.toDigits 10 e.2.1 ++ [','] ++ Nat.toDigits 10 e.2.2 ++ [',']
  lin.dropLast ++ ['\n']

/-- `list.index`: the first position of a value, an error when there is none. -/
def listIndex (l : List ℚ) (a : ℚ) : Option ℕ := if a ∈ l then some (l.idxOf a) else none

/-- The class of a leaf. -/
def isCG (value : ℚ × ℚ) : Bool := decide (value.1 < value.2)

/-- `Write_Rules_Rec`: the dictionary of ranges and the text of the file are threaded through. -/
def writeRulesRec (dicoFtsThr : Dict (Fin 12) (List ℚ)) :
    Tree → Dict (Fin 12) (ℕ × ℕ) → List Char → Option (Dict (Fin 12) (ℕ × ℕ) × List Char)
  | .leaf value, dicoFtsInds, fil =>
      some (dicoFtsInds, fil ++ exportActionRule (isCG value) dicoFtsInds)
  | .node ft thr left right, dicoFtsInds, fil => do
      let thrs ← dicoFtsThr.get ft
      let newInd ← listIndex thrs thr
      -- Left Tree : True (<=)
      let save := dicoFtsInds.get ft
      let dicoFtsInds :=
        match save with
        | none => dicoFtsInds.set ft (0, newInd)
        | some r => dicoFtsInds.set ft (r.1, newInd)
      let (dicoFtsInds, fil) ← writeRulesRec dicoFtsThr left dicoFtsInds fil
      let dicoFtsInds :=
        match save with
        | none => dicoFtsInds.del ft
        | some r => dicoFtsInds.set ft r
      -- Right Tree : False (>)
      let save := dicoFtsInds.get ft
      let dicoFtsInds :=
        match save with
        | none => dicoFtsInds.set ft (newInd + 1, thrs.length - 1)
        | some r => dicoFtsInds.set ft (newInd + 1, r.2)
      let (dicoFtsInds, fil) ← writeRulesRec dicoFtsThr right dicoFtsInds fil
      let dicoFtsInds :=
        match save with
        | none => dicoFtsInds.del ft
        | some r => dicoFtsInds.set ft r
      some (dicoFtsInds, fil)

/-- `int(e)`: truncation toward zero. -/
def toInt (e : ℚ) : ℤ := e.num.tdiv e.den

/-- `str` of an integer. -/
def strInt : ℤ → List Char
  | .ofNat n => Nat.toDigits 10 n
  | .negSucc n => '-' :: Nat.toDigits 10 (n + 1)

/-- `Write_Feature_Rules`. -/
def writeFeatureRules (dicoFtsThr : Dict (Fin 12) (List ℚ)) : List Char :=
  dicoFtsThr.flatMap fun (k, v) =>
    let str := Nat.toDigits 10 k ++ [',']
    let str := str ++ v.flatMap fun e => strInt (toInt e) ++ [',']
    str.dropLast ++ ['\n']

/-- `FTS_THRS` after the first pass. -/
def ftsThrs (tree : Tree) : Dict (Fin 12) (List ℚ) := sortFeatsThresh (getFeatsRec tree [])

/-- `ACT_Ruls.csv`. -/
def actRulsCsv (tree : Tree) : Option (List Char) :=
  (writeRulesRec (ftsThrs tree) tree [] []).map Prod.snd

/-- `FTR_Ruls.csv`. -/
def ftrRulsCsv (tree : Tree) : List Char := writeFeatureRules (ftsThrs tree)

/-- What the tree says about a vector of features: left when the feature is at most the
threshold. -/
def Tree.predict (tree : Tree) (x : Fin 12 → ℕ) : Bool :=
  isCG (tree.eval fun f t => decide ((x f : ℚ) ≤ t))

/-- What training guarantees of a tree over features between 0 and `FTS_MAX`: every test lies
strictly between the bounds its path already imposes on the feature. -/
def Tree.Trained (tree : Tree) : Prop := tree.Tight (fun _ => 0) fun f => (ftsMax f : ℚ)

/-! ## The thresholds of a feature -/

variable {tree : Tree} {f : Fin 12} {t : ℚ}

/-- The sorted thresholds of a feature, between 0 and the feature's bound. -/
def Tree.thrs (tree : Tree) (f : Fin 12) : List ℚ := sortThresh f (tree.thresholds f)

private lemma getFeatsRec_node (ft : Fin 12) (thr : ℚ) (left right : Tree)
    (d : Dict (Fin 12) (List ℚ)) :
    getFeatsRec (.node ft thr left right) d =
      getFeatsRec right (getFeatsRec left (d.set ft ((d.get ft).getD [] ++ [thr]))) := by
  simp only [getFeatsRec]
  cases h : d.get ft with
  | none => simp
  | some v => simp [h]

private lemma get_set_append (d : Dict (Fin 12) (List ℚ)) (ft : Fin 12) (thr : ℚ) :
    ((d.set ft ((d.get ft).getD [] ++ [thr])).get f).getD [] =
        (d.get f).getD [] ++ (if ft = f then [thr] else []) ∧
      (((d.set ft ((d.get ft).getD [] ++ [thr])).get f).isSome ↔ (d.get f).isSome ∨ ft = f) := by
  by_cases h : ft = f
  · subst h
    simp
  · rw [Dict.get_set_of_ne _ _ (Ne.symm h)]
    simp [h]

/-- The first pass appends the thresholds of every feature in preorder. -/
private lemma getFeatsRec_spec (tree : Tree) (d : Dict (Fin 12) (List ℚ)) (f : Fin 12) :
    ((getFeatsRec tree d).get f).getD [] = (d.get f).getD [] ++ tree.thresholds f ∧
      (((getFeatsRec tree d).get f).isSome ↔ (d.get f).isSome ∨ tree.thresholds f ≠ []) := by
  induction tree generalizing d with
  | leaf value => simp [getFeatsRec, ThresholdTree.thresholds]
  | node ft thr left right ihl ihr =>
      obtain ⟨hroot, hsome⟩ := get_set_append (f := f) d ft thr
      obtain ⟨hl, hlsome⟩ := ihl (d.set ft ((d.get ft).getD [] ++ [thr]))
      obtain ⟨hr, hrsome⟩ := ihr (getFeatsRec left (d.set ft ((d.get ft).getD [] ++ [thr])))
      rw [getFeatsRec_node]
      constructor
      · rw [hr, hl, hroot, ThresholdTree.thresholds]
        simp only [List.append_assoc]
      · rw [hrsome, hlsome, hsome, ThresholdTree.thresholds]
        by_cases h : ft = f
        · simp [h]
        · simp only [h, or_false, if_false, List.nil_append, ne_eq, List.append_eq_nil_iff]
          tauto

private lemma nodup_getFeatsRec (tree : Tree) {d : Dict (Fin 12) (List ℚ)}
    (hd : (d.map Prod.fst).Nodup) : ((getFeatsRec tree d).map Prod.fst).Nodup := by
  induction tree generalizing d with
  | leaf value => exact hd
  | node ft thr left right ihl ihr =>
      rw [getFeatsRec_node]
      exact ihr (ihl (Dict.nodup_set hd ft _))

/-- The sorted thresholds of the tested features. -/
lemma get_ftsThrs (tree : Tree) (f : Fin 12) :
    (ftsThrs tree).get f = if tree.thresholds f = [] then none else some (tree.thrs f) := by
  obtain ⟨hval, hsome⟩ := getFeatsRec_spec tree [] f
  have hmap : (ftsThrs tree).get f = ((getFeatsRec tree []).get f).map (sortThresh f) :=
    Dict.get_map_val sortThresh _ f
  rw [hmap]
  cases hget : (getFeatsRec tree []).get f with
  | none =>
      have hnil : tree.thresholds f = [] := by simpa [hget] using hsome
      rw [if_pos hnil]
      rfl
  | some v =>
      have hne : tree.thresholds f ≠ [] := by simpa [hget] using hsome
      have hv : v = tree.thresholds f := by simpa [hget] using hval
      rw [if_neg hne, hv]
      rfl

/-- Every feature has one row. -/
lemma nodup_ftsThrs (tree : Tree) : ((ftsThrs tree).map Prod.fst).Nodup := by
  have h : ((getFeatsRec tree []).map Prod.fst).Nodup :=
    nodup_getFeatsRec tree (d := []) List.nodup_nil
  rw [ftsThrs, sortFeatsThresh, List.map_map]
  exact h

lemma length_thrs (tree : Tree) (f : Fin 12) :
    (tree.thrs f).length = (tree.thresholds f).length + 2 := by
  simp [Tree.thrs, sortThresh, List.length_insertionSort]

lemma mem_thrs_of_mem (ht : t ∈ tree.thresholds f) : t ∈ tree.thrs f := by
  simp [Tree.thrs, sortThresh, List.mem_insertionSort, ht]

/-- The list is sorted when all thresholds lie between its ends. -/
lemma pairwise_thrs (h : ∀ t ∈ tree.thresholds f, 0 < t ∧ t < (ftsMax f : ℚ)) :
    (tree.thrs f).Pairwise (· ≤ ·) := by
  have hmax : (0 : ℚ) ≤ (ftsMax f : ℚ) := Nat.cast_nonneg _
  rw [Tree.thrs, sortThresh, List.cons_append, List.pairwise_cons, List.pairwise_append]
  refine ⟨?_, List.pairwise_insertionSort _ _, List.pairwise_singleton _ _, ?_⟩
  · intro s hs
    rcases List.mem_append.1 hs with hs | hs
    · exact le_of_lt (h s ((List.mem_insertionSort _).1 hs)).1
    · rw [List.mem_singleton.1 hs]
      exact hmax
  · intro s hs u hu
    rw [List.mem_singleton.1 hu]
    exact le_of_lt (h s ((List.mem_insertionSort _).1 hs)).2

/-! ## Positions -/

/-- The index of a threshold in the rules: its first position in the sorted list. -/
def Tree.pos (tree : Tree) (f : Fin 12) (t : ℚ) : ℕ := (tree.thrs f).idxOf t

/-- The last index of a feature: the position of its bound. -/
def Tree.top (tree : Tree) (f : Fin 12) : ℕ := (tree.thresholds f).length + 1

lemma pos_lt_top (ht : t ∈ tree.thresholds f) : tree.pos f t < tree.top f := by
  have hmem : t ∈ 0 :: (tree.thresholds f).insertionSort (· ≤ ·) := by
    simp [List.mem_insertionSort, ht]
  have hlt := List.idxOf_lt_length_of_mem hmem
  rw [List.length_cons, List.length_insertionSort] at hlt
  rw [Tree.pos, Tree.thrs, sortThresh, List.idxOf_append_of_mem hmem]
  exact hlt

lemma pos_pos (h : 0 < t) : 0 < tree.pos f t := by
  have hne : (0 : ℚ) ≠ t := ne_of_lt h
  rw [Tree.pos, Tree.thrs, sortThresh, List.cons_append, List.idxOf_cons_ne _ hne]
  exact Nat.succ_pos _

/-- Smaller thresholds have smaller indexes. -/
lemma pos_lt_pos (h : ∀ t ∈ tree.thresholds f, 0 < t ∧ t < (ftsMax f : ℚ)) {s : ℚ}
    (hs : s ∈ tree.thresholds f) (ht : t ∈ tree.thresholds f) (hst : s < t) :
    tree.pos f s < tree.pos f t :=
  Cells.idxOf_lt_idxOf_of_lt (pairwise_thrs h) (mem_thrs_of_mem hs) (mem_thrs_of_mem ht) hst

/-! ## The action rules -/

/-- The row of a leaf with its box, without the newline. -/
def actionRow (r : (ℚ × ℚ) × Dict (Fin 12) (ℕ × ℕ)) : List ℕ :=
  (isCG r.1).toNat :: r.2.flatMap fun e => [e.1.val, e.2.1, e.2.2]

lemma exportActionRule_eq (value : ℚ × ℚ) (box : Dict (Fin 12) (ℕ × ℕ)) :
    exportActionRule (isCG value) box = numRow ',' (actionRow (value, box)) ++ ['\n'] := by
  have hbox : (box.flatMap fun e =>
        Nat.toDigits 10 e.1 ++ [','] ++ Nat.toDigits 10 e.2.1 ++ [','] ++ Nat.toDigits 10 e.2.2 ++
          [',']) =
      terminated ',' ((box.flatMap fun e => [e.1.val, e.2.1, e.2.2]).map (Nat.toDigits 10)) := by
    induction box with
    | nil => rfl
    | cons e box ih =>
        rw [List.flatMap_cons, ih]
        simp [terminated]
  have hlin : exportActionRule (isCG value) box =
      (terminated ',' ((actionRow (value, box)).map (Nat.toDigits 10))).dropLast ++ ['\n'] := by
    simp only [exportActionRule, hbox, actionRow, List.map_cons]
    rfl
  rw [hlin, dropLast_terminated (by simp [actionRow])]
  rfl

/-- The file of action rules for some leaves with their boxes. -/
def actionText (rs : List ((ℚ × ℚ) × Dict (Fin 12) (ℕ × ℕ))) : List Char :=
  terminated '\n' (rs.map fun r => numRow ',' (actionRow r))

/-- **The traversal writes the boxes.**  It writes one row for each leaf below the current path, the
leaf's box, and leaves the dictionary of ranges as it found it. -/
theorem writeRulesRec_eq {root : Tree}
    (hsub : ∀ f, ∀ t ∈ tree.thresholds f, t ∈ root.thresholds f)
    (inds : Dict (Fin 12) (ℕ × ℕ)) (fil : List Char) :
    writeRulesRec (ftsThrs root) tree inds fil =
      some (inds, fil ++ actionText (tree.boxes root.pos root.top inds)) := by
  induction tree generalizing inds fil with
  | leaf value =>
      simp only [writeRulesRec, exportActionRule_eq, ThresholdTree.boxes, actionText, terminated,
        List.map_singleton, List.flatMap_singleton]
  | node ft thr left right ihl ihr =>
      have hthr : thr ∈ root.thresholds ft :=
        hsub ft thr ThresholdTree.mem_thresholds_root
      have hleft := ihl fun j s hs => hsub j s (ThresholdTree.mem_thresholds_left hs)
      have hright := ihr fun j s hs => hsub j s (ThresholdTree.mem_thresholds_right hs)
      have hget : (ftsThrs root).get ft = some (root.thrs ft) := by
        rw [get_ftsThrs, if_neg (List.ne_nil_of_mem hthr)]
      have hindex : listIndex (root.thrs ft) thr = some (root.pos ft thr) :=
        if_pos (mem_thrs_of_mem hthr)
      have htop : (root.thrs ft).length - 1 = root.top ft := by
        rw [length_thrs, Tree.top]
        omega
      have htext :
          actionText ((ThresholdTree.node ft thr left right).boxes root.pos root.top inds) =
            actionText (left.boxes root.pos root.top (ThresholdTree.goLeft root.pos inds ft thr)) ++
              actionText (right.boxes root.pos root.top
                (ThresholdTree.goRight root.pos root.top inds ft thr)) := by
        simp [ThresholdTree.boxes, actionText, terminated]
      rw [htext, ← List.append_assoc]
      -- Whether the feature was already on the path decides how the ranges are restored.
      cases hsave : inds.get ft with
      | none =>
          simp only [writeRulesRec, hget, hindex, hsave, hleft, hright, Option.bind_eq_bind,
            Option.bind_some, Dict.del_set_of_get_none _ hsave, htop, ThresholdTree.goLeft,
            ThresholdTree.goRight]
      | some r =>
          simp only [writeRulesRec, hget, hindex, hsave, hleft, hright, Option.bind_eq_bind,
            Option.bind_some, Dict.set_set, Dict.set_get hsave, ThresholdTree.goLeft,
            ThresholdTree.goRight]

/-- The file of action rules holds the boxes of the tree. -/
lemma actRulsCsv_eq (tree : Tree) :
    actRulsCsv tree = some (actionText (tree.boxes tree.pos tree.top [])) := by
  rw [actRulsCsv, writeRulesRec_eq (fun _ _ ht => ht)]
  rfl

/-! ## The feature rules -/

/-- The numbers in the row of a feature: the feature, then its list truncated. -/
def featureRow (f : Fin 12) (v : List ℚ) : List ℕ := f.val :: v.map Nat.floor

lemma strInt_toInt {e : ℚ} (he : 0 ≤ e) : strInt (toInt e) = Nat.toDigits 10 ⌊e⌋₊ := by
  have hnum : 0 ≤ e.num := Rat.num_nonneg.2 he
  have hint : toInt e = (⌊e⌋₊ : ℤ) := by
    rw [toInt, Int.tdiv_eq_ediv_of_nonneg hnum, Int.natCast_floor_eq_floor he]
    exact (Rat.floor_def e).symm
  rw [hint]
  rfl

/-- The file of feature rules, when no threshold is negative. -/
lemma writeFeatureRules_eq {d : Dict (Fin 12) (List ℚ)} (h : ∀ e ∈ d, ∀ t ∈ e.2, 0 ≤ t) :
    writeFeatureRules d = terminated '\n' (d.map fun e => numRow ',' (featureRow e.1 e.2)) := by
  induction d with
  | nil => rfl
  | cons e d ih =>
      obtain ⟨k, v⟩ := e
      have hv : (v.flatMap fun e => strInt (toInt e) ++ [',']) =
          terminated ',' ((v.map Nat.floor).map (Nat.toDigits 10)) := by
        rw [terminated, List.flatMap_map, List.flatMap_map]
        refine List.flatMap_congr fun t ht => ?_
        rw [strInt_toInt (h (k, v) (List.mem_cons_self ..) t ht)]
      have hrow : (Nat.toDigits 10 k.val ++ [','] ++
            v.flatMap fun e => strInt (toInt e) ++ [',']).dropLast =
          numRow ',' (featureRow k v) := by
        rw [hv]
        exact dropLast_terminated (List.cons_ne_nil (Nat.toDigits 10 k.val) _)
      have hrest := ih fun e he => h e (List.mem_cons_of_mem _ he)
      unfold writeFeatureRules at hrest ⊢
      rw [List.flatMap_cons, hrest]
      simp only [hrow]
      rfl

end FlowClassifier
