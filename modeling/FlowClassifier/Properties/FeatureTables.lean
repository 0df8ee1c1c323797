import FlowClassifier.Controller.InstallRules
import FlowClassifier.Controller.TreeRules

/-!
# The feature tables

What the feature tables look like once `FTR_Ruls.csv` is loaded, and what they do to a feature
between 0 and `FTS_MAX`.  The table of a tested feature holds the cells (`Framework/Cells.lean`)
between the truncated thresholds; `featEntries_lookup` says that the switch's lookup gives an index
that is at most the position of a threshold exactly when the feature is at most the threshold.

The cells are closed on both sides, so that neighbours share a truncated threshold, and all entries
of a table have one priority.  `splitsRange_iff` says exactly when the entries alone decide,
without a rule for ties.  It counts what the controller has installed also when it does not come to
the end of the file: the index of the 64th entry of a row does not fit into six bits.
-/

namespace FlowClassifier

open Text Interrupted

variable {tree : Tree} {f : Fin 12} {x : ℕ}

/-- All thresholds lie strictly between 0 and the bound of their feature. -/
def Tree.InRange (tree : Tree) : Prop :=
  ∀ f, ∀ t ∈ tree.thresholds f, 0 < t ∧ t < (ftsMax f : ℚ)

lemma Tree.Trained.inRange (h : tree.Trained) : tree.InRange := fun _ _ ht => h.between ht

/-! ## Cut points -/

/-- The numbers in the row of a feature. -/
def Tree.cuts (tree : Tree) (f : Fin 12) : List ℕ := (tree.thrs f).map Nat.floor

/-- Cut point `j` of a feature. -/
def Tree.cut (tree : Tree) (f : Fin 12) (j : ℕ) : ℕ := (tree.cuts f).getD j 0

lemma length_cuts (tree : Tree) (f : Fin 12) : (tree.cuts f).length = tree.top f + 1 := by
  rw [Tree.cuts, List.length_map, length_thrs, Tree.top]

lemma cut_of_lt {j : ℕ} (hj : j < (tree.thrs f).length) :
    tree.cut f j = ⌊(tree.thrs f)[j]⌋₊ := by
  have hlen : j < ((tree.thrs f).map Nat.floor).length := by simpa using hj
  rw [Tree.cut, Tree.cuts, List.getD_eq_getElem _ _ hlen, List.getElem_map]

lemma cut_zero : tree.cut f 0 = 0 := by
  simp [Tree.cut, Tree.cuts, Tree.thrs, sortThresh]

lemma cut_top : tree.cut f (tree.top f) = ftsMax f := by
  have hlen : tree.top f = (0 :: (tree.thresholds f).insertionSort (· ≤ ·)).length := by
    rw [List.length_cons, List.length_insertionSort, Tree.top]
  rw [Tree.cut, Tree.cuts, Tree.thrs, sortThresh, hlen, List.map_append, List.getD_append_right,
    List.length_map, Nat.sub_self]
  · simp
  · rw [List.length_map]

lemma cut_mono (h : tree.InRange) {i j : ℕ} (hij : i ≤ j) (hj : j ≤ tree.top f) :
    tree.cut f i ≤ tree.cut f j := by
  have hlen : (tree.thrs f).length = tree.top f + 1 := by rw [length_thrs, Tree.top]
  rcases Nat.eq_or_lt_of_le hij with rfl | hlt
  · exact le_rfl
  · rw [cut_of_lt (by omega), cut_of_lt (by omega)]
    exact Nat.floor_le_floor
      (List.pairwise_iff_getElem.1 (pairwise_thrs (h f)) _ _ (by omega) (by omega) hlt)

lemma cut_pos {t : ℚ} (ht : t ∈ tree.thresholds f) : tree.cut f (tree.pos f t) = ⌊t⌋₊ := by
  have hlen := List.idxOf_lt_length_of_mem (mem_thrs_of_mem ht)
  have hget : (tree.thrs f)[(tree.thrs f).idxOf t] = t := List.getElem_idxOf hlen
  rw [Tree.pos, cut_of_lt hlen, hget]

/-- The thresholds of a feature in the order of their cells. -/
def Tree.sorted (tree : Tree) (f : Fin 12) : List ℚ :=
  (tree.thresholds f).insertionSort (· ≤ ·)

lemma mem_sorted {t : ℚ} : t ∈ tree.sorted f ↔ t ∈ tree.thresholds f :=
  List.mem_insertionSort (· ≤ ·)

lemma top_eq : tree.top f = (tree.sorted f).length + 1 := by
  rw [Tree.top, Tree.sorted, List.length_insertionSort]

/-- The inner cut points are the truncated thresholds. -/
lemma cut_succ {k : ℕ} (hk : k < (tree.sorted f).length) :
    tree.cut f (k + 1) = ⌊(tree.sorted f)[k]⌋₊ := by
  have hlen : k + 1 < (tree.thrs f).length := by
    rw [length_thrs]
    rw [Tree.sorted, List.length_insertionSort] at hk
    omega
  rw [cut_of_lt hlen]
  have hget : (tree.thrs f)[k + 1] = (tree.sorted f)[k] := by
    simp only [Tree.thrs, sortThresh, List.cons_append, List.getElem_cons_succ]
    exact List.getElem_append_left hk
  rw [hget]

/-! ## Loading the file -/

lemma cuts_le (h : tree.InRange) {n : ℕ} (hn : n ∈ tree.cuts f) : n ≤ ftsMax f := by
  obtain ⟨j, hj, rfl⟩ := List.mem_iff_getElem.1 hn
  have hcut : (tree.cuts f)[j] = tree.cut f j := by
    rw [Tree.cut, List.getD_eq_getElem _ _ hj]
  rw [length_cuts] at hj
  have htop : tree.cut f (tree.top f) = ftsMax f := cut_top
  rw [hcut, ← htop]
  exact cut_mono h (by omega) le_rfl

lemma ftsMax_lt (f : Fin 12) : ftsMax f < 2 ^ featWidth f := by
  revert f
  decide

/-- The contents of the feature tables after loading. -/
def Tables.loadFtr (t : Tables) (tree : Tree) : Tables :=
  { t with
    feat := fun f =>
      t.feat f ++ if tree.thresholds f = [] then [] else featEntries f (tree.cuts f) }

/-- The rows of `FTR_Ruls.csv`. -/
def ftrRows (tree : Tree) : Dict (Fin 12) (List ℕ) :=
  (ftsThrs tree).map fun e => (e.1, e.2.map Nat.floor)

lemma get_ftrRows (tree : Tree) (f : Fin 12) :
    (ftrRows tree).get f = if tree.thresholds f = [] then none else some (tree.cuts f) := by
  have hget : (ftrRows tree).get f = ((ftsThrs tree).get f).map (List.map Nat.floor) :=
    Dict.get_map_val (fun _ => List.map Nat.floor) _ f
  rw [hget, get_ftsThrs]
  split <;> rfl

lemma nodup_ftrRows (tree : Tree) : ((ftrRows tree).map Prod.fst).Nodup := by
  rw [ftrRows, List.map_map]
  exact nodup_ftsThrs tree

lemma eq_of_mem_ftrRows {e : Fin 12 × List ℕ} (he : e ∈ ftrRows tree) :
    tree.thresholds e.1 ≠ [] ∧ e.2 = tree.cuts e.1 := by
  have hget := Dict.get_of_mem (nodup_ftrRows tree) (a := e.2) he
  rw [get_ftrRows] at hget
  split at hget
  · exact absurd hget (by simp)
  · rename_i hne
    exact ⟨hne, (Option.some.inj hget).symm⟩

lemma length_le_of_mem_ftrRows_iff {e : Fin 12 × List ℕ} (he : e ∈ ftrRows tree) :
    e.2.length ≤ 64 ↔ (tree.thresholds e.1).length ≤ 62 := by
  rw [(eq_of_mem_ftrRows he).2, length_cuts, Tree.top]
  omega

lemma forall_length_ftrRows_iff :
    (∀ e ∈ ftrRows tree, e.2.length ≤ 64) ↔ ∀ f, (tree.thresholds f).length ≤ 62 := by
  constructor
  · intro hall f
    by_cases hne : tree.thresholds f = []
    · simp [hne]
    · have hget : (ftrRows tree).get f = some (tree.cuts f) := by rw [get_ftrRows, if_neg hne]
      have hmem := Dict.mem_of_get hget
      exact (length_le_of_mem_ftrRows_iff hmem).1 (hall _ hmem)
  · exact fun hall e he => (length_le_of_mem_ftrRows_iff he).2 (hall e.1)

/-- The features whose rows stand before that of `f`. -/
def rowsBefore (tree : Tree) (f : Fin 12) : List (Fin 12) :=
  ((ftsThrs tree).map Prod.fst).takeWhile fun g => g ≠ f

lemma forall_length_takeWhile_ftrRows_iff :
    (∀ e ∈ (ftrRows tree).takeWhile fun e : Fin 12 × List ℕ => e.1 ≠ f, e.2.length ≤ 64) ↔
      ∀ g ∈ rowsBefore tree f, (tree.thresholds g).length ≤ 62 := by
  have hkeys : rowsBefore tree f =
      ((ftrRows tree).takeWhile fun e : Fin 12 × List ℕ => e.1 ≠ f).map Prod.fst := by
    have hfst : (ftsThrs tree).map Prod.fst = (ftrRows tree).map Prod.fst := by
      rw [ftrRows, List.map_map]
      rfl
    rw [rowsBefore, hfst, List.takeWhile_map]
    rfl
  rw [hkeys, List.forall_mem_map]
  refine forall₂_congr fun e he => ?_
  exact length_le_of_mem_ftrRows_iff ((List.takeWhile_sublist _).subset he)

/-- The file has these rows, all thresholds being positive. -/
lemma ftrRulsCsv_eq (h : tree.InRange) :
    ftrRulsCsv tree =
      terminated '\n' ((ftrRows tree).map fun e => numRow ',' (e.1.val :: e.2)) := by
  have hnonneg : ∀ e ∈ ftsThrs tree, ∀ t ∈ e.2, 0 ≤ t := by
    rintro ⟨f, v⟩ he t ht
    have hget := Dict.get_of_mem (nodup_ftsThrs tree) he
    rw [get_ftsThrs] at hget
    split at hget
    · exact absurd hget (by simp)
    · obtain rfl := Option.some.inj hget
      have hsorted := pairwise_thrs (h f)
      rw [Tree.thrs, sortThresh, List.cons_append] at ht hsorted
      rcases List.mem_cons.1 ht with rfl | ht
      · exact le_rfl
      · exact (List.pairwise_cons.1 hsorted).1 t ht
  rw [ftrRulsCsv, writeFeatureRules_eq hnonneg, ftrRows, List.map_map]
  rfl

section Loading

variable (h : tree.InRange) (t : Tables)
include h

lemma writeFeatRule_ftrRulsCsv_eq :
    writeFeatRule (ftrRulsCsv tree) t =
      if ∀ f, (tree.thresholds f).length ≤ 62 then .ok (t.loadFeat (rowsRead (ftrRows tree)))
      else .error (t.loadFeat (rowsRead (ftrRows tree))) := by
  have hfit : ∀ e ∈ ftrRows tree, ∀ n ∈ e.2, n < 2 ^ featWidth e.1 := by
    intro e he n hn
    rw [(eq_of_mem_ftrRows he).2] at hn
    exact lt_of_le_of_lt (cuts_le h hn) (ftsMax_lt e.1)
  rw [ftrRulsCsv_eq h, writeFeatRule_terminated (nodup_ftrRows tree) hfit]
  simp only [forall_length_ftrRows_iff]

/-- **Loading `FTR_Ruls.csv`.**  The table of every tested feature gets the cells between its cut
points. -/
theorem writeFeatRule_ftrRulsCsv (hcount : ∀ f, (tree.thresholds f).length ≤ 62) :
    writeFeatRule (ftrRulsCsv tree) t = .ok (t.loadFtr tree) := by
  have hlen := forall_length_ftrRows_iff.2 hcount
  rw [writeFeatRule_ftrRulsCsv_eq h, if_pos hcount, rowsRead_eq_self hlen]
  simp only [Tables.loadFeat, Tables.loadFtr, Except.ok.injEq, Tables.mk.injEq, true_and, and_true]
  funext f
  rw [get_ftrRows]
  split
  · rfl
  · rename_i hne
    have hmem : (f, tree.cuts f) ∈ ftrRows tree :=
      Dict.mem_of_get (by rw [get_ftrRows, if_neg hne])
    rw [Option.map_some, Option.getD_some, fittingEntries_eq (hlen _ hmem)]

lemma writeFeatRule_ftrRulsCsv_ne_ok (hcount : ¬ ∀ f, (tree.thresholds f).length ≤ 62)
    (t' : Tables) : writeFeatRule (ftrRulsCsv tree) t ≠ .ok t' := by
  rw [writeFeatRule_ftrRulsCsv_eq h, if_neg hcount]
  exact fun hload => absurd hload (by simp)

/-- What the table of a tested feature holds after loading, finished or not. -/
lemma feat_left_writeFeatRule (hf : tree.thresholds f ≠ []) (ht : t.feat f = []) :
    (left (writeFeatRule (ftrRulsCsv tree) t)).feat f =
      if ∀ g ∈ rowsBefore tree f, (tree.thresholds g).length ≤ 62 then
        fittingEntries f (tree.cuts f)
      else [] := by
  have hleft : left (writeFeatRule (ftrRulsCsv tree) t) = t.loadFeat (rowsRead (ftrRows tree)) := by
    rw [writeFeatRule_ftrRulsCsv_eq h]
    split <;> rfl
  have hrow : (rowsRead (ftrRows tree)).get f =
      if ∀ g ∈ rowsBefore tree f, (tree.thresholds g).length ≤ 62 then some (tree.cuts f)
      else none := by
    rw [get_rowsRead, get_ftrRows, if_neg hf]
    simp only [forall_length_takeWhile_ftrRows_iff]
  simp only [hleft, Tables.loadFeat, hrow, ht, List.nil_append]
  split <;> rfl

end Loading

/-! ## Lookups -/

lemma featEntries_cuts :
    featEntries f (tree.cuts f) =
      (List.range' 1 (tree.top f)).map (featEntry f (tree.cuts f)) := by
  rw [featEntries, length_cuts, Nat.add_sub_cancel]

lemma hits_comp_featEntry :
    RangeEntry.hits x ∘ featEntry f (tree.cuts f) =
      fun i => decide (Cells.InCell (tree.cut f) x i) := by
  funext i
  show RangeEntry.hits x (featEntry f (tree.cuts f) i) = _
  rw [RangeEntry.hits, ← Bool.decide_and]
  rfl

/-- The entries that fit into six bits are those of the first 63 cells. -/
lemma fittingEntries_cuts :
    fittingEntries f (tree.cuts f) =
      (List.range' 1 (min 63 (tree.top f))).map (featEntry f (tree.cuts f)) := by
  rw [fittingEntries, featEntries_cuts, ← List.map_take]
  rcases Nat.le_total 63 (tree.top f) with hle | hle
  · rw [List.take_range'_of_length_ge hle, Nat.min_eq_left hle]
  · rw [List.take_range'_of_length_le hle, Nat.min_eq_right hle]

lemma filter_fittingEntries :
    (fittingEntries f (tree.cuts f)).filter (RangeEntry.hits x) =
      ((List.range' 1 (min 63 (tree.top f))).filter fun i =>
        decide (Cells.InCell (tree.cut f) x i)).map (featEntry f (tree.cuts f)) := by
  rw [fittingEntries_cuts, List.filter_map, hits_comp_featEntry]

lemma top_pos : 0 < tree.top f := Nat.succ_pos _

private lemma cut_ends (hx : x ≤ ftsMax f) :
    tree.cut f 0 ≤ x ∧ x ≤ tree.cut f (tree.top f) := by
  rw [cut_zero, cut_top]
  exact ⟨Nat.zero_le x, hx⟩

private lemma exists_firstCell (h : tree.InRange) (hx : x ≤ ftsMax f) :
    ∃ j, (List.range' 1 (tree.top f)).find? (fun i => decide (Cells.InCell (tree.cut f) x i)) =
        some j ∧ 1 ≤ j ∧ j ≤ tree.top f ∧
      ∀ k, 1 ≤ k → k ≤ tree.top f → (x ≤ tree.cut f k ↔ j ≤ k) :=
  Cells.exists_find?_inCell top_pos (fun _ _ => cut_mono h) (cut_ends hx).1 (cut_ends hx).2

/-- On the left of a threshold means an index up to its position. -/
private lemma le_threshold_iff {t : ℚ} (ht : t ∈ tree.thresholds f) (hpos : 0 < t) {j : ℕ}
    (hj : ∀ k, 1 ≤ k → k ≤ tree.top f → (x ≤ tree.cut f k ↔ j ≤ k)) :
    (x : ℚ) ≤ t ↔ j ≤ tree.pos f t := by
  rw [← Nat.le_floor_iff (le_of_lt hpos), ← cut_pos ht]
  exact hj _ (pos_pos hpos) (le_of_lt (pos_lt_top ht))

/-- **The index of a feature.**  The lookup in the cells between the cut points hits, and its index
compares with the positions of the thresholds as the feature does with the thresholds. -/
theorem featEntries_lookup (h : tree.InRange) (hx : x ≤ ftsMax f) :
    ∃ j, rangeLookup (featEntries f (tree.cuts f)) x = some (BitVec.ofNat 6 j) ∧ 1 ≤ j ∧
      j ≤ tree.top f ∧ ∀ t ∈ tree.thresholds f, (x : ℚ) ≤ t ↔ j ≤ tree.pos f t := by
  obtain ⟨j, hfind, hj, hjn, hpos⟩ := exists_firstCell h hx
  have hprio : ∀ e ∈ featEntries f (tree.cuts f), e.priority = f.val + 1 := by
    intro e he
    obtain ⟨i, -, rfl⟩ := List.mem_map.1 he
    rfl
  have hwinner : Table.winner RangeEntry.priority (RangeEntry.hits x)
      (featEntries f (tree.cuts f)) = some (featEntry f (tree.cuts f) j) := by
    rw [Table.winner_eq_find? hprio, featEntries_cuts, List.find?_map, hits_comp_featEntry, hfind]
    rfl
  refine ⟨j, ?_, hj, hjn, fun t ht => le_threshold_iff ht (h f t ht).1 hpos⟩
  rw [rangeLookup, hwinner]
  rfl

/-! ## Ties -/

/-- The cells alone decide: of the entries of the highest priority that the controller installs
exactly one matches, and its index compares with the positions of the thresholds as the feature does
with the thresholds. -/
def SplitsRange (tree : Tree) (f : Fin 12) (x : ℕ) : Prop :=
  ∃ e, Table.finalists RangeEntry.priority (RangeEntry.hits x)
      ((left (writeFeatRule (ftrRulsCsv tree) Tables.empty)).feat f) = [e] ∧
    ∀ thr ∈ tree.thresholds f, (x : ℚ) ≤ thr ↔ e.params.toNat ≤ tree.pos f thr

lemma finalists_fittingEntries (ns : List ℕ) :
    Table.finalists RangeEntry.priority (RangeEntry.hits x) (fittingEntries f ns) =
      (fittingEntries f ns).filter (RangeEntry.hits x) := by
  have hprio : ∀ e ∈ fittingEntries f ns, e.priority = f.val + 1 := by
    intro e he
    obtain ⟨i, -, rfl⟩ := List.mem_map.1 (List.mem_of_mem_take he)
    rfl
  refine List.filter_congr fun e he => ?_
  have hall : (fittingEntries f ns).all
      (fun e' => !RangeEntry.hits x e' || decide (e'.priority ≤ e.priority)) = true := by
    rw [List.all_eq_true]
    intro e' he'
    simp [hprio e he, hprio e' he']
  rw [hall, Bool.and_true]

/-- The cut points strictly inside the installed cells are the first 62 thresholds. -/
private lemma ne_cut_iff :
    (∀ k, 1 ≤ k → k < min 63 (tree.top f) → x ≠ tree.cut f k) ↔
      ∀ t ∈ (tree.sorted f).take 62, x ≠ ⌊t⌋₊ := by
  constructor
  · intro hall t ht
    obtain ⟨k, hk, rfl⟩ := List.mem_take_iff_getElem.1 ht
    rw [← cut_succ (by omega)]
    have htop : tree.top f = (tree.sorted f).length + 1 := top_eq
    exact hall (k + 1) (by omega) (by omega)
  · intro hall k hk hkn
    obtain ⟨k, rfl⟩ := Nat.exists_eq_add_of_le' hk
    rw [top_eq] at hkn
    rw [cut_succ (by omega)]
    exact hall _ (List.mem_take_iff_getElem.2 ⟨k, by omega, rfl⟩)

private lemma le_last_cut_iff (hx : x ≤ ftsMax f) :
    x ≤ tree.cut f (min 63 (tree.top f)) ↔ ∀ t, (tree.sorted f)[62]? = some t → x ≤ ⌊t⌋₊ := by
  rcases Nat.lt_or_ge 62 (tree.sorted f).length with hlen | hlen
  · have hmin : min 63 (tree.top f) = 62 + 1 := by
      rw [top_eq]
      omega
    rw [hmin, cut_succ hlen, List.getElem?_eq_getElem hlen]
    simp
  · have hmin : min 63 (tree.top f) = tree.top f := by
      rw [top_eq]
      omega
    rw [hmin, cut_top, List.getElem?_eq_none hlen]
    simpa using hx

/-- The value lies in exactly one of the installed cells when they reach up to it and it is no
truncated threshold between two of them, and only then. -/
private lemma exists_cell_iff (h : tree.InRange) (hx : x ≤ ftsMax f) :
    (∃ j, (List.range' 1 (min 63 (tree.top f))).filter
        (fun i => decide (Cells.InCell (tree.cut f) x i)) = [j]) ↔
      (∀ t ∈ (tree.sorted f).take 62, x ≠ ⌊t⌋₊) ∧
        ∀ t, (tree.sorted f)[62]? = some t → x ≤ ⌊t⌋₊ := by
  have hpos : 0 < min 63 (tree.top f) := Nat.lt_min.2 ⟨by decide, top_pos⟩
  rw [Cells.exists_filter_inCell_iff hpos
    (fun i j hij hj => cut_mono h hij (hj.trans (Nat.min_le_right _ _))) (cut_ends hx).1,
    ne_cut_iff, le_last_cut_iff hx, and_comm]

private lemma index_of_cell (h : tree.InRange) (hx : x ≤ ftsMax f) {j : ℕ}
    (hj : (List.range' 1 (min 63 (tree.top f))).filter
      (fun i => decide (Cells.InCell (tree.cut f) x i)) = [j]) :
    ∀ t ∈ tree.thresholds f,
      (x : ℚ) ≤ t ↔ (featEntry f (tree.cuts f) j).params.toNat ≤ tree.pos f t := by
  have hmem : ∀ i, 1 ≤ i → i ≤ min 63 (tree.top f) → Cells.InCell (tree.cut f) x i → i = j := by
    intro i hi hin hcell
    have hfilter : i ∈ (List.range' 1 (min 63 (tree.top f))).filter
        (fun i => decide (Cells.InCell (tree.cut f) x i)) :=
      List.mem_filter.2 ⟨List.mem_range'_1.2 ⟨hi, by omega⟩, decide_eq_true hcell⟩
    rw [hj] at hfilter
    exact List.mem_singleton.1 hfilter
  have hself : j ∈ (List.range' 1 (min 63 (tree.top f))).filter
      (fun i => decide (Cells.InCell (tree.cut f) x i)) := by
    rw [hj]
    exact List.mem_singleton_self j
  obtain ⟨hrange, hcell⟩ := List.mem_filter.1 hself
  have hbounds := List.mem_range'_1.1 hrange
  -- It is the first of all cells with the value.
  obtain ⟨i, hfind, hi, hin, hpos⟩ := exists_firstCell h hx
  have hfirst : i ≤ j := (hpos j hbounds.1 (by omega)).1 (of_decide_eq_true hcell).2
  have hicell : Cells.InCell (tree.cut f) x i := by simpa using List.find?_some hfind
  obtain rfl := hmem i hi (by omega) hicell
  have hbits : (featEntry f (tree.cuts f) i).params.toNat = i := by
    simp only [featEntry, BitVec.toNat_ofNat]
    omega
  rw [hbits]
  exact fun t ht => le_threshold_iff ht (h f t ht).1 hpos

/-- **When the entries of a feature table split its range.**  At a value of a tested feature they do
without ambiguity if and only if the controller comes to the row of the feature, the value is none
of its first 62 thresholds, truncated, since there two neighbours match, and is not above the 63rd,
where nothing is installed. -/
theorem splitsRange_iff (h : tree.InRange) (hf : tree.thresholds f ≠ []) (hx : x ≤ ftsMax f) :
    SplitsRange tree f x ↔
      (∀ g ∈ rowsBefore tree f, (tree.thresholds g).length ≤ 62) ∧
        (∀ t ∈ (tree.sorted f).take 62, x ≠ ⌊t⌋₊) ∧
        ∀ t, (tree.sorted f)[62]? = some t → x ≤ ⌊t⌋₊ := by
  rw [SplitsRange, feat_left_writeFeatRule h Tables.empty hf rfl, ← exists_cell_iff h hx]
  by_cases hrows : ∀ g ∈ rowsBefore tree f, (tree.thresholds g).length ≤ 62
  · rw [if_pos hrows, finalists_fittingEntries, filter_fittingEntries]
    refine ⟨fun ⟨e, he, _⟩ => ?_, fun ⟨_, j, hj⟩ => ?_⟩
    · obtain ⟨j, hj, -⟩ := List.map_eq_singleton_iff.1 he
      exact ⟨hrows, j, hj⟩
    · refine ⟨featEntry f (tree.cuts f) j, ?_, index_of_cell h hx hj⟩
      rw [hj]
      rfl
  · rw [if_neg hrows]
    exact iff_of_false (fun ⟨e, he, _⟩ => absurd he (by simp [Table.finalists]))
      fun hall => hrows hall.1

/-- A tree with one test: the feature is at most 20. -/
def oneTestTree (f : Fin 12) : Tree := .node f 20 (.leaf (1, 0)) (.leaf (0, 1))

lemma thresholds_oneTestTree {g : Fin 12} {t : ℚ} (ht : t ∈ (oneTestTree f).thresholds g) :
    g = f ∧ t = 20 := by
  rcases ThresholdTree.mem_thresholds_node.1 ht with ⟨rfl, rfl⟩ | ht | ht
  · exact ⟨rfl, rfl⟩
  · exact absurd ht List.not_mem_nil
  · exact absurd ht List.not_mem_nil

lemma inRange_oneTestTree : (oneTestTree 0).InRange := by
  intro f t ht
  obtain ⟨rfl, rfl⟩ := thresholds_oneTestTree ht
  norm_num [ftsMax]

lemma mem_thresholds_oneTestTree : (20 : ℚ) ∈ (oneTestTree f).thresholds f :=
  ThresholdTree.mem_thresholds_root

/-- Just above the threshold the entries decide. -/
theorem splitsRange_iff_above : SplitsRange (oneTestTree 0) 0 21 := by
  refine (splitsRange_iff inRange_oneTestTree (List.ne_nil_of_mem mem_thresholds_oneTestTree)
    (by decide)).2 ⟨by decide, fun t ht => ?_, by decide⟩
  have hmem := mem_sorted.1 (List.mem_of_mem_take ht)
  obtain ⟨-, rfl⟩ := thresholds_oneTestTree hmem
  simp

/-- On the threshold they do not: the entries [0, 20] and [20, 4095] both match. -/
theorem not_splitsRange_threshold :
    (oneTestTree 0).InRange ∧ (oneTestTree 0).thresholds 0 ≠ [] ∧ 20 ≤ ftsMax 0 ∧
      ¬ SplitsRange (oneTestTree 0) 0 20 := by
  have hne := List.ne_nil_of_mem (mem_thresholds_oneTestTree (f := 0))
  refine ⟨inRange_oneTestTree, hne, by decide, fun ⟨e, he, _⟩ => ?_⟩
  have hone : (Table.finalists RangeEntry.priority (RangeEntry.hits 20)
      ((left (writeFeatRule (ftrRulsCsv (oneTestTree 0)) Tables.empty)).feat 0)).length = 2 := by
    decide +kernel
  rw [he] at hone
  exact absurd hone (by simp)

end FlowClassifier
