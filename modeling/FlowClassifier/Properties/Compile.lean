import FlowClassifier.Properties.FeatureTables
import FlowClassifier.Switch.Cell

/-!
# Compiling the tree preserves its meaning

A tree goes through `dum2Cond.py` into two files, through `main.py` into thirteen tables, and
through the switch's lookups into a bit.  `classify_install` says that the bit is the class of the
leaf the tree reaches, on every feature vector between 0 and `FTS_MAX`.

The argument has two halves.  The feature tables replace the features by indexes that compare with
the positions of the thresholds as the features do with the thresholds (`featEntries_lookup`); the
action rules are the boxes of the tree over these positions, of which exactly one matches
(`filter_actRules`).
-/

namespace FlowClassifier

open Text Interrupted

variable {tree : Tree}

/-! ## The compiler -/

/-- Both files written and loaded: the tables the controller ends with. -/
def Tree.install (tree : Tree) (t : Tables) : Except Tables Tables := do
  let act ← stopAt t (actRulsCsv tree)
  let t ← writeFeatRule (ftrRulsCsv tree) t
  writeActRule act t

/-- The leaves of the tree, class and ranges. -/
def Tree.leaves (tree : Tree) : List (Bool × Dict (Fin 12) (ℕ × ℕ)) :=
  (tree.boxes tree.pos tree.top []).map fun r => (isCG r.1, r.2)

/-- The tables with both files loaded. -/
def Tables.loadTree (t : Tables) (tree : Tree) : Tables :=
  { t.loadFtr tree with actRules := t.actRules ++ actEntriesFrom 1 tree.leaves }

lemma top_le (hcount : ∀ f, (tree.thresholds f).length ≤ 62) (f : Fin 12) : tree.top f ≤ 63 := by
  have hf := hcount f
  rw [Tree.top]
  omega

lemma actRulsCsv_leaves (tree : Tree) :
    actRulsCsv tree =
      some (terminated '\n' (tree.leaves.map fun r => numRow ',' (actRow r.1 r.2))) := by
  rw [actRulsCsv_eq, actionText, Tree.leaves, List.map_map]
  rfl

lemma leaves_fit (hcount : ∀ f, (tree.thresholds f).length ≤ 62) :
    ∀ r ∈ tree.leaves, (r.2.map Prod.fst).Nodup ∧ FitsKeys r.2 := by
  intro r hr
  obtain ⟨r, hmem, rfl⟩ := List.mem_map.1 hr
  have hpos : ∀ f, ∀ t ∈ tree.thresholds f, tree.pos f t < tree.top f :=
    fun _ _ ht => pos_lt_top ht
  obtain ⟨hnodup, hbounds⟩ := ThresholdTree.wellFormed_boxes hpos r hmem
  refine ⟨hnodup, fun e he => ?_⟩
  have htop := top_le hcount e.1
  have he' := hbounds e he
  omega

/-- **Loading both files** succeeds and installs the cells and the boxes of the tree. -/
theorem install_eq (h : tree.InRange) (hcount : ∀ f, (tree.thresholds f).length ≤ 62)
    (t : Tables) : tree.install t = .ok (t.loadTree tree) := by
  rw [Tree.install, actRulsCsv_leaves, stopAt_some, bind_eq_bind, ok_bind,
    writeFeatRule_ftrRulsCsv h t hcount, bind_eq_bind, ok_bind,
    writeActRule_terminated (leaves_fit hcount)]
  rfl

/-! ## The action rules partition the indexes -/

lemma Tree.Trained.pos_mono (h : tree.Trained) (f : Fin 12) (s t : ℚ)
    (hs : s ∈ tree.thresholds f) (ht : t ∈ tree.thresholds f) (hst : s < t) :
    tree.pos f s < tree.pos f t := pos_lt_pos (h.inRange f) hs ht hst

lemma respects_nil (tree : Tree) :
    ThresholdTree.Respects (fun f t => t ∈ tree.thresholds f) tree.pos (fun _ => 0)
      (fun f => (ftsMax f : ℚ)) [] := fun _ _ hr => absurd hr (by simp)

lemma hits_eq_inBox (idx : Fin 12 → ℕ) (e : ActEntry) :
    e.hits idx = decide (ThresholdTree.InBox idx e.fields) := by
  rw [Bool.eq_iff_iff, decide_eq_true_iff]
  simp [ActEntry.hits, ThresholdTree.InBox]

/-- On indexes up to the top exactly one action rule matches, that of the leaf which the tree
reaches when positions are compared instead of features. -/
theorem filter_actRules (h : tree.Trained) {idx : Fin 12 → ℕ}
    (hidx : ∀ f, ∀ t ∈ tree.thresholds f, idx f ≤ tree.top f) :
    ∃ e, (actEntriesFrom 1 tree.leaves).filter (ActEntry.hits idx) = [e] ∧
      e.cg = BitVec.ofBool (isCG (tree.eval fun f t => decide (idx f ≤ tree.pos f t))) := by
  have hroot : ThresholdTree.InBox idx [] := fun e he => absurd he List.not_mem_nil
  have hboxes := ThresholdTree.filter_boxes h.pos_mono (fun f t ht => pos_lt_top ht)
    (fun _ _ ht => ht) h (respects_nil tree) hidx
  rw [if_pos hroot] at hboxes
  obtain ⟨r, hfilter, hvalue⟩ := List.map_eq_singleton_iff.1 hboxes
  have hkeys : (actEntriesFrom 1 tree.leaves).map (fun e => (e.fields, e.cg)) =
      (tree.boxes tree.pos tree.top []).map fun r => (r.2, BitVec.ofBool (isCG r.1)) := by
    rw [map_actEntriesFrom, Tree.leaves, List.map_map]
    rfl
  obtain ⟨e, he, hkey⟩ := Table.exists_filter_eq_singleton
    (fun k : Dict (Fin 12) (ℕ × ℕ) × BitVec 1 => decide (ThresholdTree.InBox idx k.1)) hkeys hfilter
  refine ⟨e, ?_, ?_⟩
  · rw [← he]
    exact List.filter_congr fun e _ => hits_eq_inBox idx e
  · rw [← hvalue]
    exact congrArg Prod.snd hkey

/-! ## The classification -/

/-- **Compiling the tree preserves its meaning.**  The thirteen tables, filled from the two files of
a trained tree, give every feature vector between 0 and `FTS_MAX` the class of the leaf the tree
reaches: whether its second value is the greater. -/
theorem classify_install (h : tree.Trained) (hcount : ∀ f, (tree.thresholds f).length ≤ 62)
    (t₀ : Tables) (hfeat : ∀ f, t₀.feat f = []) (hact : t₀.actRules = []) :
    ∃ t, tree.install t₀ = .ok t ∧ ∀ s : State,
      (∀ f, featKey s.trackMeta.features f ≤ ftsMax f) →
        ∀ value, value =
            tree.eval (fun f thr => decide ((featKey s.trackMeta.features f : ℚ) ≤ thr)) →
          (classify t s).trackMeta.isCG = if value.1 < value.2 then 1 else 0 := by
  refine ⟨t₀.loadTree tree, install_eq h.inRange hcount t₀, ?_⟩
  rintro s hs value rfl
  rw [classify_eq_actRules]
  generalize hidx : (fun g => (rangeLookup ((t₀.loadTree tree).feat g)
    (featKey s.trackMeta.features g)).getD (s.trackMeta.actionFt g)) = idx
  -- The index of a tested feature compares with the positions as the feature with the thresholds.
  have hindex : ∀ f, ∀ t ∈ tree.thresholds f, (idx f).toNat ≤ tree.top f ∧
      ((featKey s.trackMeta.features f : ℚ) ≤ t ↔ (idx f).toNat ≤ tree.pos f t) := by
    intro f t ht
    obtain ⟨j, hlookup, hj, hjn, hpos⟩ := featEntries_lookup h.inRange (hs f)
    have htable : (t₀.loadTree tree).feat f = featEntries f (tree.cuts f) := by
      simp [Tables.loadTree, Tables.loadFtr, hfeat, List.ne_nil_of_mem ht]
    have htop := top_le hcount f
    have hidxf : (idx f).toNat = j := by
      rw [← hidx]
      simp only [htable, hlookup, Option.getD_some, BitVec.toNat_ofNat]
      omega
    rw [hidxf]
    exact ⟨hjn, hpos t ht⟩
  obtain ⟨e, he, hcg⟩ := filter_actRules h fun f t ht => (hindex f t ht).1
  have heval : tree.eval (fun f t => decide ((idx f).toNat ≤ tree.pos f t)) =
      tree.eval fun f t => decide ((featKey s.trackMeta.features f : ℚ) ≤ t) :=
    ThresholdTree.eval_congr fun f t ht => decide_eq_decide.2 (hindex f t ht).2.symm
  have hwinner : Table.winner ActEntry.priority (ActEntry.hits fun f => (idx f).toNat)
      (t₀.loadTree tree).actRules = some e := by
    refine Table.winner_eq_of_filter ?_
    rw [Tables.loadTree, hact]
    exact he
  rw [actRules, State.actionFt_setActionFt, hwinner]
  show e.cg = _
  rw [hcg, heval, isCG]
  split
  · rename_i hlt
    rw [decide_eq_true hlt]
    rfl
  · rename_i hlt
    rw [decide_eq_false hlt]
    rfl

/-- A tree that tests the feature `f` twice on a path, and `g` on another. -/
def twiceTestedTree (f g : Fin 12) : Tree :=
  .node f 10 (.node g 100 (.leaf (1, 0)) (.leaf (0, 1)))
    (.node f (41 / 2) (.leaf (0, 1)) (.leaf (1, 0)))

/-- A vector whose downlink count is the truncated second threshold. -/
theorem classify_install_on_threshold :
    ∃ t, (twiceTestedTree 5 0).install Tables.empty = .ok t ∧ ∀ s : State,
      (s.trackMeta.features = fun d => if d = .DW then ⟨100, 0, 0, 0, 2000, 20⟩ else .zero) →
        (classify t s).trackMeta.isCG = 1 := by
  have htrained : (twiceTestedTree 5 0).Trained := by
    have hne : (0 : Fin 12) ≠ 5 := by decide
    norm_num [Tree.Trained, twiceTestedTree, ThresholdTree.Tight, ThresholdTree.update, ftsMax, hne]
  obtain ⟨t, ht, hclass⟩ :=
    classify_install htrained (by decide) Tables.empty (fun _ => rfl) rfl
  refine ⟨t, ht, fun s hs => ?_⟩
  have hleaf : ((0 : ℚ), (1 : ℚ)) = (twiceTestedTree 5 0).eval
      (fun f thr => decide ((featKey s.trackMeta.features f : ℚ) ≤ thr)) := by
    rw [hs]
    decide +kernel
  rw [hclass s ?_ _ hleaf]
  · rfl
  · rw [hs]
    decide

end FlowClassifier
