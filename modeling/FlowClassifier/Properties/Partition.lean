import FlowClassifier.Properties.Compile

/-!
# The action rules partition the indexes

`ACT_Ruls.csv` has one row for each leaf of the tree, and its entries divide the vectors of
threshold indexes among themselves: `actRules_partition` says that every vector of indexes up to
the tops is matched by exactly one entry, so that `ActRules` decides the class without its
priorities.  The lower end 0 counts as an index, since a feature table that misses leaves it.

The keys of `ActRules` have six bits, and the last index of a feature is one more than the number
of its tests.  With 63 tests of one feature the file is therefore refused
(`not_actRules_partition`), although its rows still partition the indexes.
-/

namespace FlowClassifier

open Text Interrupted

variable {tree : Tree}

/-- What an entry matches and decides, its priority left out. -/
def ActEntry.rule (e : ActEntry) : Dict (Fin 12) (ℕ × ℕ) × BitVec 1 := (e.fields, e.cg)

/-! ## The rows of the file -/

lemma map_fst_leaves (tree : Tree) : tree.leaves.map Prod.fst = tree.leafValues.map isCG := by
  have hclasses : tree.leaves.map Prod.fst =
      ((tree.boxes tree.pos tree.top []).map Prod.fst).map isCG := by
    rw [Tree.leaves, List.map_map, List.map_map]
    rfl
  rw [hclasses, ThresholdTree.map_fst_boxes]

lemma ordered_leaves (h : tree.Trained) : ∀ r ∈ tree.leaves, ∀ e ∈ r.2, e.2.1 ≤ e.2.2 := by
  intro r hr
  obtain ⟨r, hmem, rfl⟩ := List.mem_map.1 hr
  exact ThresholdTree.ordered_boxes h.pos_mono (fun f t ht => pos_lt_top ht) (fun _ _ ht => ht) h
    (respects_nil tree) (fun e he => absurd he List.not_mem_nil) r hmem

lemma nodup_leaves (tree : Tree) : ∀ r ∈ tree.leaves, (r.2.map Prod.fst).Nodup := by
  intro r hr
  obtain ⟨r, hmem, rfl⟩ := List.mem_map.1 hr
  have hpos : ∀ f, ∀ t ∈ tree.thresholds f, tree.pos f t < tree.top f :=
    fun _ _ ht => pos_lt_top ht
  exact (ThresholdTree.wellFormed_boxes hpos r hmem).1

/-! ## Loading -/

/-- The rows fit the six-bit keys when no feature is tested more than 62 times, and only then. -/
lemma fitsKeys_leaves_iff (tree : Tree) :
    (∀ r ∈ tree.leaves, FitsKeys r.2) ↔ ∀ f, (tree.thresholds f).length ≤ 62 := by
  constructor
  · intro hfits f
    rcases List.eq_nil_or_concat (tree.thresholds f) with hnil | ⟨ts, t, hts⟩
    · simp [hnil]
    · have htested : t ∈ tree.thresholds f := by simp [hts]
      obtain ⟨r, hr, a, hmem⟩ :=
        ThresholdTree.exists_box_top tree.pos tree.top (Dict.get_nil f) htested
      have htop : tree.top f < 64 :=
        (hfits (isCG r.1, r.2) (List.mem_map.2 ⟨r, hr, rfl⟩) _ hmem).2
      rw [Tree.top] at htop
      omega
  · exact fun hcount r hr => (leaves_fit hcount r hr).2

lemma writeActRule_leaves (tree : Tree) (t : Tables) :
    writeActRule (terminated '\n' (tree.leaves.map fun r => numRow ',' (actRow r.1 r.2))) t =
      if ∀ f, (tree.thresholds f).length ≤ 62 then
        .ok (t.appendAct (actEntriesFrom 1 tree.leaves))
      else .error (t.appendAct (actEntriesFrom 1 (fittingRows tree.leaves))) := by
  split
  · rename_i hcount
    exact writeActRule_terminated (leaves_fit hcount) t
  · rename_i hcount
    rw [writeActRule_eq (nodup_leaves tree), if_neg (mt (fitsKeys_leaves_iff tree).1 hcount)]

/-! ## The partition -/

/-- Entries that differ in their priorities only decide alike where one of them matches alone. -/
lemma actRules_congr {t t' : Tables} {s : State} {e : ActEntry}
    (hrules : t'.actRules.map ActEntry.rule = t.actRules.map ActEntry.rule)
    (he : t.actRules.filter (ActEntry.hits fun f => (s.trackMeta.actionFt f).toNat) = [e]) :
    actRules t' s = actRules t s := by
  obtain ⟨e', he', hrule⟩ := Table.exists_filter_eq_singleton
    (fun r : Dict (Fin 12) (ℕ × ℕ) × BitVec 1 => ActEntry.hits
      (fun f => (s.trackMeta.actionFt f).toNat) ⟨0, r.1, r.2⟩) hrules he
  have hcg : e'.cg = e.cg := congrArg Prod.snd hrule
  have hwinner : Table.winner ActEntry.priority
      (ActEntry.hits fun f => (s.trackMeta.actionFt f).toNat) t.actRules = some e :=
    Table.winner_eq_of_filter he
  have hwinner' : Table.winner ActEntry.priority
      (ActEntry.hits fun f => (s.trackMeta.actionFt f).toNat) t'.actRules = some e' :=
    Table.winner_eq_of_filter he'
  rw [actRules, actRules, hwinner, hwinner']
  exact congrArg (fun cg => setTraffic cg s) hcg

/-- **The action rules partition the indexes.**  The file of a trained tree has one row for each
leaf, and no range in it is empty.  It can be loaded if no feature is tested more than 62 times;
then exactly one entry matches every vector of indexes up to the number of tests plus one, and the
class it decides does not depend on the priorities. -/
theorem actRules_partition (h : tree.Trained) :
    ∃ rows : List (Bool × Dict (Fin 12) (ℕ × ℕ)),
      actRulsCsv tree =
          some (terminated '\n' (rows.map fun r => numRow ',' (actRow r.1 r.2))) ∧
        rows.map Prod.fst = tree.leafValues.map isCG ∧
        (∀ r ∈ rows, ∀ e ∈ r.2, e.2.1 ≤ e.2.2) ∧
        ∀ t₀ : Tables, t₀.actRules = [] → (∀ f, (tree.thresholds f).length ≤ 62) →
          ∃ t, (stopAt t₀ (actRulsCsv tree)).bind (fun file => writeActRule file t₀) = .ok t ∧
            t.actRules.map ActEntry.rule = rows.map (fun r => (r.2, BitVec.ofBool r.1)) ∧
            (∀ idx : Fin 12 → ℕ, (∀ f, idx f ≤ (tree.thresholds f).length + 1) →
              ∃ e, t.actRules.filter (ActEntry.hits idx) = [e]) ∧
            ∀ t' : Tables, t'.actRules.map ActEntry.rule = t.actRules.map ActEntry.rule →
              ∀ s : State,
                (∀ f, (s.trackMeta.actionFt f).toNat ≤ (tree.thresholds f).length + 1) →
                  actRules t' s = actRules t s := by
  refine ⟨tree.leaves, actRulsCsv_leaves tree, map_fst_leaves tree, ordered_leaves h, ?_⟩
  intro t₀ hempty hcount
  have hentries : t₀.actRules ++ actEntriesFrom 1 tree.leaves = actEntriesFrom 1 tree.leaves := by
    rw [hempty, List.nil_append]
  refine ⟨{ t₀ with actRules := actEntriesFrom 1 tree.leaves }, ?_, ?_, ?_, ?_⟩
  · rw [actRulsCsv_leaves, stopAt_some, ok_bind, writeActRule_leaves, if_pos hcount,
      Tables.appendAct, hentries]
  · exact map_actEntriesFrom 1 tree.leaves
  · intro idx hidx
    obtain ⟨e, he, -⟩ := filter_actRules h fun f _ _ => hidx f
    exact ⟨e, he⟩
  · intro t' hrules s hs
    obtain ⟨e, he, -⟩ := filter_actRules h fun f _ _ => hs f
    exact actRules_congr hrules he

/-- The vector of a count between the two thresholds and a mean above its only one. -/
theorem actRules_partition_twiceTestedTree :
    (twiceTestedTree 5 0).Trained ∧
      ∃ t, (stopAt Tables.empty (actRulsCsv (twiceTestedTree 5 0))).bind
          (fun file => writeActRule file Tables.empty) = .ok t ∧
        ∃ e, t.actRules.filter (ActEntry.hits fun f => if f = 0 then 2 else 1) = [e] := by
  have hne : (0 : Fin 12) ≠ 5 := by decide
  have htrained : (twiceTestedTree 5 0).Trained := by
    norm_num [Tree.Trained, twiceTestedTree, ThresholdTree.Tight, ThresholdTree.update, ftsMax, hne]
  obtain ⟨rows, -, -, -, hload⟩ := actRules_partition htrained
  obtain ⟨t, ht, -, hpartition, -⟩ := hload Tables.empty rfl (by decide)
  refine ⟨htrained, t, ht, hpartition _ fun f => ?_⟩
  revert f
  decide

/-! ## Too many tests -/

/-- A tree that compares `f` with `k + 1`, ..., `k + n`, each on the right of the one before. -/
def ladder (f : Fin 12) : ℕ → ℕ → Tree
  | 0, _ => .leaf (0, 1)
  | n + 1, k => .node f (k + 1 : ℕ) (.leaf (1, 0)) (ladder f n (k + 1))

lemma length_thresholds_ladder (f : Fin 12) (n k : ℕ) :
    ((ladder f n k).thresholds f).length = n := by
  induction n generalizing k with
  | zero => rfl
  | succ n ih => simp [ladder, ThresholdTree.thresholds, ih]

lemma tight_ladder {f : Fin 12} {n k : ℕ} {lo hi : Fin 12 → ℚ} (hlo : lo f ≤ k)
    (hhi : (k + n : ℕ) < hi f) : (ladder f n k).Tight lo hi := by
  induction n generalizing k lo with
  | zero => trivial
  | succ n ih =>
      have hstep : (k : ℚ) < (k + 1 : ℕ) := by exact_mod_cast Nat.lt_succ_self k
      have hlast : ((k + 1 : ℕ) : ℚ) ≤ (k + (n + 1) : ℕ) := by
        exact_mod_cast Nat.add_le_add_left (Nat.succ_pos n) k
      refine ⟨⟨lt_of_le_of_lt hlo hstep, lt_of_le_of_lt hlast hhi⟩, trivial, ih ?_ ?_⟩
      · exact le_of_eq (ThresholdTree.update_self ..)
      · rwa [Nat.add_right_comm, Nat.add_assoc]

/-- The rules of a tree with 63 tests of one feature are refused, because the last index of the
feature does not fit the key. -/
theorem not_actRules_partition :
    (ladder 0 63 0).Trained ∧
      ∀ t, (stopAt Tables.empty (actRulsCsv (ladder 0 63 0))).bind
        (fun file => writeActRule file Tables.empty) ≠ .ok t := by
  refine ⟨tight_ladder le_rfl ?_, fun t => ?_⟩
  · norm_num [ftsMax]
  · have hcount : ¬ ∀ f, ((ladder 0 63 0).thresholds f).length ≤ 62 := by
      intro hcount
      have hlen := hcount 0
      rw [length_thresholds_ladder] at hlen
      omega
    rw [actRulsCsv_leaves, stopAt_some, ok_bind, writeActRule_leaves, if_neg hcount]
    exact fun hload => absurd hload (by simp)

end FlowClassifier
