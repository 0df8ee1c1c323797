import Mathlib.Algebra.Ring.Nat
import Mathlib.Data.List.GetD
import Mathlib.Data.List.TakeWhile
import FlowClassifier.Framework.Interrupted
import FlowClassifier.Framework.Text
import FlowClassifier.Switch.Tables

/-!
# Loading the rule files

The part of `main.py` that reads `FTR_Ruls.csv` and `ACT_Ruls.csv` and fills the feature tables and
the action table.  Two neighbouring numbers in the row of a feature become an entry of its table,
with the position of the second as the index; all entries of a table have one priority.  A row of
the second file becomes an entry with increasing priorities.  An entry that is refused stops the
controller, and the switch keeps those installed before it (`Framework/Interrupted.lean`).

`writeFeatRule_terminated` and `writeActRule_terminated` follow files of well-formed rows through:
which entries each table gets, as functions of the numbers in the rows, and whether the controller
comes to the end of the file.
-/

namespace FlowClassifier

open Text Interrupted

/-! ## The program -/

/-- The numbers `range(start, stop, step)` runs over. -/
def pyRange (start stop step : ℕ) : List ℕ :=
  List.range' start ((stop - start + step - 1) / step) step

/-- The feature whose number stands in a table's or a field's name, `Feat<f>ruls` or
`actionFt<f>`. -/
def featOfName (name : List Char) : Option (Fin 12) :=
  (List.finRange 12).find? fun f => decide (Nat.toDigits 10 f = name)

/-- `insertTableEntry` on a feature table.  An entry equal to one that is there in match and
priority is taken to be accepted. -/
def Tables.insertFeat (f : Fin 12) (e : RangeEntry (BitVec 6)) (t : Tables) : Tables :=
  { t with feat := fun g => if g = f then t.feat g ++ [e] else t.feat g }

/-- `insertTableEntry` on `ActRules`, where no two entries have one priority. -/
def Tables.insertAct (e : ActEntry) (t : Tables) : Tables :=
  { t with actRules := t.actRules ++ [e] }

/-- The width in bits of the key of `Feat<f>ruls`. -/
def featWidth (f : Fin 12) : ℕ :=
  match f with
  | 2 | 3 | 8 | 9 => 48
  | 5 | 11 => 12
  | _ => 32

/-- `write_ftr_switch`: bounds wider than the key and an index that does not fit into six bits are
refused. -/
def writeFtrSwitch (numFeat thr1 thr2 : List Char) (ind : ℕ) (switch : Tables) :
    Except Tables Tables := do
  let f ← stopAt switch (featOfName numFeat)
  let lo ← stopAt switch (readNat thr1)
  let hi ← stopAt switch (readNat thr2)
  if lo < 2 ^ featWidth f ∧ hi < 2 ^ featWidth f ∧ ind < 2 ^ 6 then
    .ok (switch.insertFeat f ⟨f.val + 1, lo, hi, BitVec.ofNat 6 ind⟩)
  else .error switch

/-- The body of the inner loop of `write_feat_rule`, which counts `index` along with `i`. -/
def featStep (feat : List Char) (thrs : List (List Char)) (st : ℕ × Tables) (i : ℕ) :
    Except Tables (ℕ × Tables) := do
  let (index, switch) := st
  let thr1 ← stopAt switch thrs[i - 1]?
  let thr2 ← stopAt switch thrs[i]?
  let switch ← writeFtrSwitch feat thr1 thr2 index switch
  .ok (index + 1, switch)

/-- The body of the loop of `write_feat_rule`. -/
def featRowStep (switch : Tables) (row : List (List Char)) : Except Tables Tables := do
  let feat ← stopAt switch row.head?
  let thrs := row.tail
  let (_, switch) ← (pyRange 1 thrs.length 1).foldlM (featStep feat thrs) (1, switch)
  .ok switch

/-- `write_feat_rule`. -/
def writeFeatRule (file : List Char) (switch : Tables) : Except Tables Tables :=
  ((fileLines file).map (csvRow ',')).foldlM featRowStep switch

/-- `write_act_switch`: a class is one bit, and the bounds of the six-bit keys are six bits. -/
def writeActSwitch (typTraf : List Char) (conditions : Dict (Fin 12) (ℕ × ℕ)) (prio : ℕ)
    (switch : Tables) : Except Tables Tables := do
  let cg ← stopAt switch (readNat typTraf)
  if cg < 2 ∧ ∀ e ∈ conditions, e.2.1 < 2 ^ 6 ∧ e.2.2 < 2 ^ 6 then
    .ok (switch.insertAct ⟨prio, conditions, BitVec.ofNat 1 cg⟩)
  else .error switch

/-- The body of the inner loop of `write_act_rule`. -/
def actStep (row : List (List Char)) (matchFields : Dict (Fin 12) (ℕ × ℕ)) (i : ℕ) :
    Option (Dict (Fin 12) (ℕ × ℕ)) := do
  let feat ← row[i]?
  let indm ← row[i + 1]?
  let indM ← row[i + 2]?
  let f ← featOfName feat
  let lo ← readNat indm
  let hi ← readNat indM
  some (matchFields.set f (lo, hi))

/-- The body of the loop of `write_act_rule`. -/
def actRowStep (st : ℕ × Tables) (row : List (List Char)) : Except Tables (ℕ × Tables) := do
  let (prio, switch) := st
  let traf ← stopAt switch row.head?
  let matchFields ← stopAt switch ((pyRange 1 (row.length - 1) 3).foldlM (actStep row) [])
  let switch ← writeActSwitch traf matchFields prio switch
  .ok (prio + 1, switch)

/-- `write_act_rule`. -/
def writeActRule (file : List Char) (switch : Tables) : Except Tables Tables := do
  let (_, switch) ← ((fileLines file).map (csvRow ',')).foldlM actRowStep (1, switch)
  .ok switch

/-! ## Feature rows -/

lemma featOfName_toDigits (f : Fin 12) : featOfName (Nat.toDigits 10 f) = some f := by
  revert f
  decide

/-- The entry for cell `i` of a feature's numbers. -/
def featEntry (f : Fin 12) (ns : List ℕ) (i : ℕ) : RangeEntry (BitVec 6) :=
  ⟨f.val + 1, ns.getD (i - 1) 0, ns.getD i 0, BitVec.ofNat 6 i⟩

/-- The entries of a feature. -/
def featEntries (f : Fin 12) (ns : List ℕ) : List (RangeEntry (BitVec 6)) :=
  (List.range' 1 (ns.length - 1)).map (featEntry f ns)

/-- The entries of a feature whose indexes fit into six bits. -/
def fittingEntries (f : Fin 12) (ns : List ℕ) : List (RangeEntry (BitVec 6)) :=
  (featEntries f ns).take 63

lemma fittingEntries_eq {f : Fin 12} {ns : List ℕ} (h : ns.length ≤ 64) :
    fittingEntries f ns = featEntries f ns := by
  refine List.take_of_length_le ?_
  rw [featEntries, List.length_map, List.length_range']
  omega

/-- A feature table with more entries. -/
def Tables.appendFeat (t : Tables) (f : Fin 12) (es : List (RangeEntry (BitVec 6))) : Tables :=
  { t with feat := fun g => if g = f then t.feat g ++ es else t.feat g }

lemma appendFeat_nil (t : Tables) (f : Fin 12) : t.appendFeat f [] = t := by
  simp [Tables.appendFeat]

lemma appendFeat_appendFeat (t : Tables) (f : Fin 12) (es es' : List (RangeEntry (BitVec 6))) :
    (t.appendFeat f es).appendFeat f es' = t.appendFeat f (es ++ es') := by
  simp only [Tables.appendFeat, Tables.mk.injEq, true_and, and_true]
  funext g
  split <;> simp

section FeatureRow

variable {f : Fin 12} {ns : List ℕ}

/-- One turn of the inner loop installs one entry, if its index fits. -/
lemma featStep_eq (hns : ∀ n ∈ ns, n < 2 ^ featWidth f) {i : ℕ} (hi : i < ns.length) (t : Tables) :
    featStep (Nat.toDigits 10 f) (ns.map (Nat.toDigits 10)) (i, t) i =
      if i < 2 ^ 6 then .ok (i + 1, t.appendFeat f [featEntry f ns i]) else .error t := by
  have hprev : i - 1 < ns.length := by omega
  have hlo := hns _ (List.getElem_mem hprev)
  have hhi := hns _ (List.getElem_mem hi)
  have hentry : featEntry f ns i = ⟨f.val + 1, ns[i - 1], ns[i], BitVec.ofNat 6 i⟩ := by
    simp only [featEntry, List.getD_eq_getElem _ _ hprev, List.getD_eq_getElem _ _ hi]
  simp only [featStep, writeFtrSwitch, List.getElem?_map, List.getElem?_eq_getElem hprev,
    List.getElem?_eq_getElem hi, Option.map_some, bind_eq_bind, stopAt_some, ok_bind,
    featOfName_toDigits, readNat_toDigits, hlo, hhi, true_and]
  by_cases h64 : i < 2 ^ 6
  · rw [if_pos h64, if_pos h64, hentry]
    rfl
  · rw [if_neg h64, if_neg h64]
    rfl

/-- The inner loop, as long as the indexes fit. -/
lemma foldlM_featStep (hns : ∀ n ∈ ns, n < 2 ^ featWidth f) (k i : ℕ) (hk : i + k ≤ ns.length)
    (h64 : i + k ≤ 64) (t : Tables) :
    (List.range' i k).foldlM (featStep (Nat.toDigits 10 f) (ns.map (Nat.toDigits 10))) (i, t) =
      .ok (i + k, t.appendFeat f ((List.range' i k).map (featEntry f ns))) := by
  induction k generalizing i t with
  | zero =>
      rw [List.range'_zero, List.map_nil, appendFeat_nil]
      rfl
  | succ k ih =>
      rw [List.range'_succ, List.foldlM_cons, featStep_eq hns (by omega), if_pos (by omega),
        bind_eq_bind, ok_bind, ih (i + 1) (by omega) (by omega), appendFeat_appendFeat]
      congr 2
      omega

/-- A row installs the entries whose indexes fit, and stops the controller if there are others. -/
lemma featRowStep_eq (hns : ∀ n ∈ ns, n < 2 ^ featWidth f) (t : Tables) :
    featRowStep t ((f.val :: ns).map (Nat.toDigits 10)) =
      if ns.length ≤ 64 then .ok (t.appendFeat f (fittingEntries f ns))
      else .error (t.appendFeat f (fittingEntries f ns)) := by
  have hrange : pyRange 1 (ns.map (Nat.toDigits 10)).length 1 = List.range' 1 (ns.length - 1) := by
    simp [pyRange]
  simp only [featRowStep, List.map_cons, List.head?_cons, List.tail_cons, bind_eq_bind,
    stopAt_some, ok_bind, hrange]
  by_cases hlen : ns.length ≤ 64
  · rw [if_pos hlen, fittingEntries_eq hlen]
    rcases Nat.eq_zero_or_pos ns.length with hnil | hpos
    · rw [featEntries, hnil, List.range'_zero, List.map_nil, appendFeat_nil]
      rfl
    · rw [foldlM_featStep hns _ 1 (by omega) (by omega)]
      rfl
  · -- The first 63 entries are installed, the next is refused.
    have hsplit : List.range' 1 (ns.length - 1) =
        List.range' 1 63 ++ 64 :: List.range' 65 (ns.length - 65) := by
      have hcount : ns.length - 1 = 63 + (ns.length - 65 + 1) := by omega
      rw [hcount, ← List.range'_append_1]
      rfl
    have htake : fittingEntries f ns = (List.range' 1 63).map (featEntry f ns) := by
      rw [fittingEntries, featEntries, hsplit, List.map_append]
      exact List.take_left' (by simp)
    rw [if_neg hlen, hsplit, foldlM_append_ok (foldlM_featStep hns 63 1 (by omega) (by omega) t),
      List.foldlM_cons, featStep_eq hns (by omega), if_neg (by omega), htake]
    rfl

end FeatureRow

/-- The rows the controller comes to: those up to the first with more than 64 numbers. -/
def rowsRead : Dict (Fin 12) (List ℕ) → Dict (Fin 12) (List ℕ)
  | [] => []
  | e :: d => if e.2.length ≤ 64 then e :: rowsRead d else [e]

lemma rowsRead_eq_self {d : Dict (Fin 12) (List ℕ)} (h : ∀ e ∈ d, e.2.length ≤ 64) :
    rowsRead d = d := by
  induction d with
  | nil => rfl
  | cons e d ih =>
      rw [rowsRead, if_pos (h e (List.mem_cons_self ..)),
        ih fun e' he' => h e' (List.mem_cons_of_mem _ he')]

/-- The controller comes to the row of a feature when it can finish those before it. -/
lemma get_rowsRead (d : Dict (Fin 12) (List ℕ)) (f : Fin 12) :
    (rowsRead d).get f =
      if ∀ e ∈ d.takeWhile (fun e : Fin 12 × List ℕ => e.1 ≠ f), e.2.length ≤ 64 then d.get f
      else none := by
  induction d with
  | nil => simp [rowsRead]
  | cons e d ih =>
      obtain ⟨g, ns⟩ := e
      by_cases hg : g = f
      · have hget : (rowsRead ((g, ns) :: d)).get f = some ns := by
          rw [rowsRead]
          split <;> simp [Dict.get, hg]
        rw [hget, List.takeWhile_cons_of_neg (by simpa using hg), if_pos (by simp)]
        simp [Dict.get, hg]
      · rw [List.takeWhile_cons_of_pos (by simpa using hg)]
        by_cases hlen : ns.length ≤ 64
        · rw [rowsRead, if_pos hlen]
          simp only [Dict.get, if_neg hg, ih, List.forall_mem_cons, hlen, true_and]
        · rw [rowsRead, if_neg hlen, if_neg (by simp [hlen])]
          simp [Dict.get, hg]

/-- The feature tables with the entries of the rows of a dictionary. -/
def Tables.loadFeat (t : Tables) (d : Dict (Fin 12) (List ℕ)) : Tables :=
  { t with feat := fun f => t.feat f ++ ((d.get f).map (fittingEntries f)).getD [] }

/-- Loading a row before the others. -/
lemma loadFeat_cons {d : Dict (Fin 12) (List ℕ)} {f : Fin 12} (hget : d.get f = none)
    (ns : List ℕ) (t : Tables) :
    t.loadFeat ((f, ns) :: d) = (t.appendFeat f (fittingEntries f ns)).loadFeat d := by
  simp only [Tables.loadFeat, Tables.appendFeat, Tables.mk.injEq, true_and, and_true]
  funext g
  by_cases hg : g = f
  · subst hg
    simp [hget, Dict.get]
  · simp [hg, Dict.get, Ne.symm hg]

/-- **Loading feature rows.**  The feature tables get the entries of the rows the controller comes
to; a row with more than 64 numbers is the last of these. -/
theorem writeFeatRule_terminated {d : Dict (Fin 12) (List ℕ)} (hd : (d.map Prod.fst).Nodup)
    (hfit : ∀ e ∈ d, ∀ n ∈ e.2, n < 2 ^ featWidth e.1) (t : Tables) :
    writeFeatRule (terminated '\n' (d.map fun e => numRow ',' (e.1.val :: e.2))) t =
      if ∀ e ∈ d, e.2.length ≤ 64 then .ok (t.loadFeat (rowsRead d))
      else .error (t.loadFeat (rowsRead d)) := by
  have hlines : ∀ l ∈ d.map (fun e => numRow ',' (e.1.val :: e.2)), '\n' ∉ l := by
    intro l hl
    obtain ⟨e, -, rfl⟩ := List.mem_map.1 hl
    exact notMem_numRow (by decide) (by decide) _
  have hrows : (d.map fun e => numRow ',' (e.1.val :: e.2)).map (csvRow ',') =
      d.map fun e => (e.1.val :: e.2).map (Nat.toDigits 10) := by
    rw [List.map_map]
    refine List.map_congr_left fun e _ => ?_
    exact csvRow_numRow (by decide) (List.cons_ne_nil _ _)
  rw [writeFeatRule, fileLines_terminated hlines, hrows]
  clear hlines hrows
  induction d generalizing t with
  | nil =>
      simp only [List.map_nil, List.foldlM_nil, rowsRead, Tables.loadFeat, Dict.get_nil,
        Option.map_none, Option.getD_none, List.append_nil]
      rfl
  | cons e d ih =>
      obtain ⟨f, ns⟩ := e
      rw [List.map_cons, List.nodup_cons] at hd
      have hrest := ih hd.2 (fun e he => hfit e (List.mem_cons_of_mem _ he))
      rw [List.map_cons, List.foldlM_cons, featRowStep_eq (hfit (f, ns) (List.mem_cons_self ..)),
        rowsRead]
      by_cases hlen : ns.length ≤ 64
      · -- No later row is about this feature.
        have hget : (rowsRead d).get f = none := by
          rw [get_rowsRead, Dict.get_eq_none_iff.2 hd.1, ite_self]
        rw [if_pos hlen, if_pos hlen, bind_eq_bind, ok_bind, hrest, loadFeat_cons hget]
        simp only [List.forall_mem_cons, hlen, true_and]
      · have hlast : t.appendFeat f (fittingEntries f ns) = t.loadFeat [(f, ns)] := by
          rw [loadFeat_cons (Dict.get_nil f)]
          simp [Tables.loadFeat]
        rw [if_neg hlen, if_neg hlen, if_neg (by simp [hlen]), hlast]
        rfl

/-! ## Action rows -/

/-- The numbers of an action row: the class, then three for each range. -/
def actRow (cg : Bool) (box : Dict (Fin 12) (ℕ × ℕ)) : List ℕ :=
  cg.toNat :: box.flatMap fun e => [e.1.val, e.2.1, e.2.2]

lemma length_actRow (cg : Bool) (box : Dict (Fin 12) (ℕ × ℕ)) :
    (actRow cg box).length = 1 + 3 * box.length := by
  have hbox : (box.flatMap fun e => [e.1.val, e.2.1, e.2.2]).length = 3 * box.length := by
    induction box with
    | nil => rfl
    | cons e box ih =>
        rw [List.flatMap_cons, List.length_append, ih]
        simp only [List.length_cons, List.length_nil]
        omega
  rw [actRow, List.length_cons, hbox]
  omega

/-- The inner loop assigns the ranges of a row in order. -/
lemma foldlM_actStep (pre : List ℕ) (box d : Dict (Fin 12) (ℕ × ℕ)) :
    (List.range' pre.length box.length 3).foldlM
        (actStep ((pre ++ box.flatMap fun e => [e.1.val, e.2.1, e.2.2]).map (Nat.toDigits 10))) d =
      some (box.foldl (fun d e => d.set e.1 e.2) d) := by
  induction box generalizing pre d with
  | nil => rfl
  | cons e box ih =>
      obtain ⟨f, lo, hi⟩ := e
      have hrow : pre ++ (((f, lo, hi) :: box).flatMap fun e => [e.1.val, e.2.1, e.2.2]) =
          (pre ++ [f.val, lo, hi]) ++ box.flatMap fun e => [e.1.val, e.2.1, e.2.2] := by
        simp
      have hstart : pre.length + 3 = (pre ++ [f.val, lo, hi]).length := by simp
      have h0 : ((pre ++ [f.val, lo, hi]) ++
          box.flatMap fun e => [e.1.val, e.2.1, e.2.2])[pre.length]? = some f.val := by
        simp
      have h1 : ((pre ++ [f.val, lo, hi]) ++
          box.flatMap fun e => [e.1.val, e.2.1, e.2.2])[pre.length + 1]? = some lo := by
        simp
      have h2 : ((pre ++ [f.val, lo, hi]) ++
          box.flatMap fun e => [e.1.val, e.2.1, e.2.2])[pre.length + 2]? = some hi := by
        simp
      rw [hrow, List.length_cons, List.range'_succ, List.foldlM_cons, hstart]
      simp only [actStep, List.getElem?_map, h0, h1, h2, Option.map_some, Option.bind_eq_bind,
        Option.bind_some, featOfName_toDigits, readNat_toDigits]
      exact ih _ _

/-- The entries of action rows, with increasing priorities. -/
def actEntriesFrom : ℕ → List (Bool × Dict (Fin 12) (ℕ × ℕ)) → List ActEntry
  | _, [] => []
  | prio, (cg, box) :: rs => ⟨prio, box, BitVec.ofBool cg⟩ :: actEntriesFrom (prio + 1) rs

lemma map_actEntriesFrom (prio : ℕ) (rs : List (Bool × Dict (Fin 12) (ℕ × ℕ))) :
    (actEntriesFrom prio rs).map (fun e => (e.fields, e.cg)) =
      rs.map fun r => (r.2, BitVec.ofBool r.1) := by
  induction rs generalizing prio with
  | nil => rfl
  | cons r rs ih =>
      obtain ⟨cg, box⟩ := r
      rw [actEntriesFrom, List.map_cons, List.map_cons, ih]

/-- The bounds of a row fit the six-bit keys. -/
def FitsKeys (box : Dict (Fin 12) (ℕ × ℕ)) : Prop := ∀ e ∈ box, e.2.1 < 64 ∧ e.2.2 < 64

instance (box : Dict (Fin 12) (ℕ × ℕ)) : Decidable (FitsKeys box) := by
  unfold FitsKeys
  infer_instance

/-- A row whose ranges name each feature at most once is installed as it stands, if its bounds
fit. -/
lemma actRowStep_eq {cg : Bool} {box : Dict (Fin 12) (ℕ × ℕ)} (hbox : (box.map Prod.fst).Nodup)
    (prio : ℕ) (t : Tables) :
    actRowStep (prio, t) ((actRow cg box).map (Nat.toDigits 10)) =
      if FitsKeys box then .ok (prio + 1, t.insertAct ⟨prio, box, BitVec.ofBool cg⟩)
      else .error t := by
  have hrange : pyRange 1 (((actRow cg box).map (Nat.toDigits 10)).length - 1) 3 =
      List.range' 1 box.length 3 := by
    have hcount : (1 + 3 * box.length - 1 - 1 + 3 - 1) / 3 = box.length := by omega
    rw [List.length_map, length_actRow, pyRange, hcount]
  have hcopy : box.foldl (fun (d : Dict (Fin 12) (ℕ × ℕ)) e => d.set e.1 e.2) [] = box :=
    Dict.foldl_set (d := []) hbox
  have hfold : (pyRange 1 (((actRow cg box).map (Nat.toDigits 10)).length - 1) 3).foldlM
      (actStep ((actRow cg box).map (Nat.toDigits 10))) [] = some box := by
    rw [hrange]
    exact (foldlM_actStep [cg.toNat] box []).trans (congrArg some hcopy)
  have hhead : ((actRow cg box).map (Nat.toDigits 10)).head? = some (Nat.toDigits 10 cg.toNat) :=
    rfl
  have hbit : cg.toNat < 2 ∧ BitVec.ofNat 1 cg.toNat = BitVec.ofBool cg := by
    cases cg <;> decide
  simp only [actRowStep, hhead, hfold, bind_eq_bind, stopAt_some, ok_bind, writeActSwitch,
    readNat_toDigits]
  by_cases hfit : FitsKeys box
  · rw [if_pos ⟨hbit.1, hfit⟩, if_pos hfit, hbit.2]
    rfl
  · rw [if_neg fun h => hfit h.2, if_neg hfit]
    rfl

/-- The action table with more entries. -/
def Tables.appendAct (t : Tables) (es : List ActEntry) : Tables :=
  { t with actRules := t.actRules ++ es }

/-- The rows before the first whose bounds do not fit. -/
def fittingRows (rs : List (Bool × Dict (Fin 12) (ℕ × ℕ))) : List (Bool × Dict (Fin 12) (ℕ × ℕ)) :=
  rs.takeWhile fun r => FitsKeys r.2

/-- **Loading action rows.**  Every row becomes an entry, up to one with a bound that does not fit
the keys, which stops the controller. -/
theorem writeActRule_eq {rs : List (Bool × Dict (Fin 12) (ℕ × ℕ))}
    (hrs : ∀ r ∈ rs, (r.2.map Prod.fst).Nodup) (t : Tables) :
    writeActRule (terminated '\n' (rs.map fun r => numRow ',' (actRow r.1 r.2))) t =
      if ∀ r ∈ rs, FitsKeys r.2 then .ok (t.appendAct (actEntriesFrom 1 (fittingRows rs)))
      else .error (t.appendAct (actEntriesFrom 1 (fittingRows rs))) := by
  have hlines : ∀ l ∈ rs.map (fun r => numRow ',' (actRow r.1 r.2)), '\n' ∉ l := by
    intro l hl
    obtain ⟨r, -, rfl⟩ := List.mem_map.1 hl
    exact notMem_numRow (by decide) (by decide) _
  have hrows : (rs.map fun r => numRow ',' (actRow r.1 r.2)).map (csvRow ',') =
      rs.map fun r => (actRow r.1 r.2).map (Nat.toDigits 10) := by
    rw [List.map_map]
    refine List.map_congr_left fun r _ => ?_
    exact csvRow_numRow (by decide) (List.cons_ne_nil _ _)
  -- The priority counts along with the rows.
  have hfold : ∀ (prio : ℕ) (t : Tables),
      ((rs.map fun r => (actRow r.1 r.2).map (Nat.toDigits 10)).foldlM actRowStep (prio, t)).bind
          (fun st => .ok st.2) =
        if ∀ r ∈ rs, FitsKeys r.2 then .ok (t.appendAct (actEntriesFrom prio (fittingRows rs)))
        else .error (t.appendAct (actEntriesFrom prio (fittingRows rs))) := by
    clear hlines hrows
    induction rs with
    | nil =>
        intro prio t
        simp [fittingRows, actEntriesFrom, Tables.appendAct, pure, Except.pure]
    | cons r rs ih =>
        intro prio t
        have hrest := ih fun r' hr' => hrs r' (List.mem_cons_of_mem _ hr')
        rw [List.map_cons, List.foldlM_cons, actRowStep_eq (hrs r (List.mem_cons_self ..))]
        by_cases hfit : FitsKeys r.2
        · have hrows : fittingRows (r :: rs) = r :: fittingRows rs :=
            List.takeWhile_cons_of_pos (by simpa using hfit)
          rw [if_pos hfit, bind_eq_bind, ok_bind, hrest, hrows]
          simp only [List.forall_mem_cons, hfit, true_and, Tables.insertAct, Tables.appendAct,
            actEntriesFrom, List.append_assoc, List.singleton_append]
        · have hrows : fittingRows (r :: rs) = [] :=
            List.takeWhile_cons_of_neg (by simpa using hfit)
          rw [if_neg hfit, if_neg (by simp [hfit]), hrows]
          simp [actEntriesFrom, Tables.appendAct]
  rw [writeActRule, fileLines_terminated hlines, hrows]
  exact hfold 1 t

/-- Rows that fit are all installed. -/
theorem writeActRule_terminated {rs : List (Bool × Dict (Fin 12) (ℕ × ℕ))}
    (hrs : ∀ r ∈ rs, (r.2.map Prod.fst).Nodup ∧ FitsKeys r.2) (t : Tables) :
    writeActRule (terminated '\n' (rs.map fun r => numRow ',' (actRow r.1 r.2))) t =
      .ok (t.appendAct (actEntriesFrom 1 rs)) := by
  have hfits : ∀ r ∈ rs, decide (FitsKeys r.2) = true := fun r hr => decide_eq_true (hrs r hr).2
  rw [writeActRule_eq fun r hr => (hrs r hr).1, if_pos fun r hr => (hrs r hr).2, fittingRows,
    List.takeWhile_eq_self_iff.2 hfits]

end FlowClassifier
