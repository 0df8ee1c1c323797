import FlowClassifier.Controller.Startup
import FlowClassifier.Properties.Domain

/-!
# The classifier that is started

`startup_installed` follows the three files of rules, as `expo.c` and `dum2Cond.py` write them,
through `main.py`: the program comes up exactly when no feature of the tree has more than 62
thresholds, and then the tables are those of the topology, of the counts and of the tree.

On such tables every report is sound, from whatever registers the switch runs
(`reports_sound`): the means are the quotients of the accumulators up to an eighth and three, and
the verdict is what the tree says about the reported features.  This needs no bound on the
features.  One above `FTS_MAX` misses its table and keeps the index zero, below all positions, so
that the tree sees a zero in its place.
-/

namespace FlowClassifier

open Mealy InversePowers Expo Interrupted

variable {tree : Tree}

/-! ## Starting -/

/-- What the switch holds once `main.py` has run on the files of a tree. -/
structure Installed (tree : Tree) (t : Tables) : Prop where
  direc : t.direc = [cltPrefix]
  ipv4Lpm : t.ipv4Lpm =
    [(ply, .ipv4Forward 1 1), (srv, .ipv4Forward 2 2), (oth, .ipv4Forward 3 3)]
  ipv4LpmDefault : t.ipv4LpmDefault = .ipv4Forward 0 2
  divide : DivisionTables t 4095
  count : ∀ f, (tree.thresholds f).length ≤ 62
  feat : ∀ f, t.feat f = if tree.thresholds f = [] then [] else featEntries f (tree.cuts f)
  actRules : t.actRules = actEntriesFrom 1 tree.leaves

/-- The tables of a switch that was started with the file of the counts up to 4095 and the two files
of a tree. -/
def Started (tree : Tree) (t : Tables) : Prop :=
  ∃ fuel appr act, 6 ≤ fuel ∧ outCsv fuel 4095 = some appr ∧ actRulsCsv tree = some act ∧
    startup appr (ftrRulsCsv tree) act = .ok t

section Startup

variable {fuel : ℕ} {appr act : List Char}

lemma startup_eq (hfuel : 6 ≤ fuel) (happr : outCsv fuel 4095 = some appr)
    (featRul actRul : List Char) :
    ∃ sw, startup appr featRul actRul =
        (writeFeatRule featRul sw).bind (writeActRule actRul) ∧
      sw = { variousTables Tables.empty with divide := sw.divide } ∧ DivisionTables sw 4095 := by
  have hempty : ∀ d, (variousTables Tables.empty).divide d = [] := fun _ => rfl
  obtain ⟨text, sw, htext, hload, hframe, htables⟩ :=
    divisionTables_of_outCsv (by decide) (le_refl 4095) hfuel hempty
  rw [happr] at htext
  obtain rfl := Option.some.inj htext
  refine ⟨sw, ?_, hframe, htables⟩
  simp only [startup, hload, bind_eq_bind, ok_bind]

lemma exists_startup_installed (h : tree.InRange) (hcount : ∀ f, (tree.thresholds f).length ≤ 62)
    (hfuel : 6 ≤ fuel) (happr : outCsv fuel 4095 = some appr) (hact : actRulsCsv tree = some act) :
    ∃ t, startup appr (ftrRulsCsv tree) act = .ok t ∧ Installed tree t := by
  obtain ⟨sw, hstart, hframe, hdivide⟩ := startup_eq hfuel happr (ftrRulsCsv tree) act
  have hloaded : startup appr (ftrRulsCsv tree) act = .ok (sw.loadTree tree) := by
    rw [actRulsCsv_leaves] at hact
    obtain rfl := Option.some.inj hact
    rw [hstart, writeFeatRule_ftrRulsCsv h sw hcount, ok_bind,
      writeActRule_terminated (leaves_fit hcount)]
    rfl
  have hdivide' : DivisionTables (sw.loadTree tree) 4095 := hdivide
  refine ⟨sw.loadTree tree, hloaded, ?_⟩
  rw [hframe] at hdivide' ⊢
  exact ⟨rfl, rfl, rfl, hdivide', hcount, fun _ => rfl, rfl⟩

lemma startup_ne_ok (h : tree.InRange) (hcount : ¬ ∀ f, (tree.thresholds f).length ≤ 62)
    (hfuel : 6 ≤ fuel) (happr : outCsv fuel 4095 = some appr) (t : Tables) :
    startup appr (ftrRulsCsv tree) act ≠ .ok t := by
  obtain ⟨sw, hstart, -⟩ := startup_eq hfuel happr (ftrRulsCsv tree) act
  rw [hstart]
  intro hload
  obtain ⟨t₁, hfeat, -⟩ := bind_eq_ok_iff.1 hload
  exact writeFeatRule_ftrRulsCsv_ne_ok h sw hcount t₁ hfeat

/-- **Starting the switch.**  On the file of the counts up to 4095 and the two files of a tree the
controller comes up if and only if no feature has more than 62 thresholds, and what it leaves are
the tables of the topology, the counts and the tree. -/
theorem startup_installed (h : tree.InRange) (hfuel : 6 ≤ fuel)
    (happr : outCsv fuel 4095 = some appr) (hact : actRulsCsv tree = some act) :
    ((∃ t, startup appr (ftrRulsCsv tree) act = .ok t) ↔
        ∀ f, (tree.thresholds f).length ≤ 62) ∧
      ∀ t, startup appr (ftrRulsCsv tree) act = .ok t → Installed tree t := by
  by_cases hcount : ∀ f, (tree.thresholds f).length ≤ 62
  · obtain ⟨t, hstart, hinstalled⟩ := exists_startup_installed h hcount hfuel happr hact
    refine ⟨iff_of_true ⟨t, hstart⟩ hcount, fun t' ht' => ?_⟩
    obtain rfl := Except.ok.inj (hstart.symm.trans ht')
    exact hinstalled
  · have hrefused : ∀ t, startup appr (ftrRulsCsv tree) act ≠ .ok t :=
      startup_ne_ok h hcount hfuel happr
    exact ⟨iff_of_false (fun ⟨t, ht⟩ => hrefused t ht) hcount, fun t ht => absurd ht (hrefused t)⟩

end Startup

lemma exists_outCsv {fuel : ℕ} (hfuel : 6 ≤ fuel) : ∃ appr, outCsv fuel 4095 = some appr := by
  obtain ⟨appr, -, happr, -⟩ :=
    divisionTables_of_outCsv (by decide) (le_refl 4095) hfuel (t := Tables.empty) fun _ => rfl
  exact ⟨appr, happr⟩

lemma trained_oneTestTree : (oneTestTree 0).Trained := by
  norm_num [Tree.Trained, oneTestTree, ThresholdTree.Tight, ftsMax]

/-- The tree with one test is loaded. -/
theorem startup_installed_one_test :
    ∃ appr act t, outCsv 6 4095 = some appr ∧ actRulsCsv (oneTestTree 0) = some act ∧
      startup appr (ftrRulsCsv (oneTestTree 0)) act = .ok t ∧ Installed (oneTestTree 0) t := by
  obtain ⟨appr, happr⟩ := exists_outCsv (le_refl 6)
  have hact := actRulsCsv_leaves (oneTestTree 0)
  obtain ⟨hup, hinstalled⟩ := startup_installed trained_oneTestTree.inRange le_rfl happr hact
  obtain ⟨t, ht⟩ := hup.2 (by decide)
  exact ⟨appr, _, t, happr, hact, ht, hinstalled t ht⟩

lemma Started.installed {t : Tables} (ht : Started tree t) (h : tree.InRange) :
    Installed tree t := by
  obtain ⟨fuel, appr, act, hfuel, happr, hact, hstart⟩ := ht
  by_cases hcount : ∀ f, (tree.thresholds f).length ≤ 62
  · obtain ⟨t', hstart', hinstalled⟩ := exists_startup_installed h hcount hfuel happr hact
    obtain rfl := Except.ok.inj (hstart.symm.trans hstart')
    exact hinstalled
  · exact absurd hstart (startup_ne_ok h hcount hfuel happr t)

lemma exists_started (h : tree.InRange) (hcount : ∀ f, (tree.thresholds f).length ≤ 62) :
    ∃ t, Started tree t := by
  obtain ⟨appr, happr⟩ := exists_outCsv (le_refl 6)
  have hact := actRulsCsv_leaves tree
  obtain ⟨t, ht, -⟩ := exists_startup_installed h hcount le_rfl happr hact
  exact ⟨t, 6, appr, _, le_rfl, happr, hact, ht⟩

/-! ## The verdict -/

/-- A feature as the tables see it: above the bound it counts for nothing. -/
def featSeen (x : Fin 12 → ℕ) (f : Fin 12) : ℕ := if x f ≤ ftsMax f then x f else 0

lemma rangeLookup_of_ftsMax_lt (h : tree.InRange) {f : Fin 12} {x : ℕ} (hx : ftsMax f < x) :
    rangeLookup (featEntries f (tree.cuts f)) x = none := by
  have hmiss : ∀ e ∈ featEntries f (tree.cuts f), RangeEntry.hits x e = false := by
    intro e he
    rw [featEntries_cuts] at he
    obtain ⟨i, hi, rfl⟩ := List.mem_map.1 he
    have hrange := List.mem_range'_1.1 hi
    have htop : (tree.cuts f).getD i 0 ≤ ftsMax f := by
      have hcut : tree.cut f i ≤ tree.cut f (tree.top f) := cut_mono h (by omega) le_rfl
      rw [cut_top] at hcut
      exact hcut
    have hhi : ¬ x ≤ (featEntry f (tree.cuts f) i).hi := by
      show ¬ x ≤ (tree.cuts f).getD i 0
      omega
    rw [RangeEntry.hits, decide_eq_false hhi, Bool.and_false]
  rw [rangeLookup, Table.winner_eq_none_iff.2 hmiss, Option.map_none]

/-- The index of a feature compares with the positions of the thresholds as the feature that is
seen does with the thresholds. -/
lemma featIndexes_compares (h : tree.InRange) {t : Tables} (ht : Installed tree t)
    (ft : Direction → Features) {f : Fin 12} {thr : ℚ} (hthr : thr ∈ tree.thresholds f) :
    (featIndexes t ft f).toNat ≤ tree.top f ∧
      ((featSeen (featKey ft) f : ℚ) ≤ thr ↔ (featIndexes t ft f).toNat ≤ tree.pos f thr) := by
  have htable : t.feat f = featEntries f (tree.cuts f) := by
    rw [ht.feat, if_neg (List.ne_nil_of_mem hthr)]
  have htop := top_le ht.count f
  rw [featIndexes, htable, featSeen]
  by_cases hx : featKey ft f ≤ ftsMax f
  · obtain ⟨j, hlookup, hj, hjn, hpos⟩ := featEntries_lookup h hx
    have hbits : (BitVec.ofNat 6 j).toNat = j := by
      rw [BitVec.toNat_ofNat]
      omega
    rw [if_pos hx, hlookup, Option.getD_some, hbits]
    exact ⟨hjn, hpos thr hthr⟩
  · have hzero : (0 : ℚ) ≤ thr := (h f thr hthr).1.le
    rw [if_neg hx, rangeLookup_of_ftsMax_lt h (not_le.1 hx), Option.getD_none]
    exact ⟨Nat.zero_le _, iff_of_true (by exact_mod_cast hzero) (Nat.zero_le _)⟩

/-- **The verdict on any features** is what the tree says about the features that are seen. -/
theorem verdict_installed (h : tree.Trained) {t : Tables} (ht : Installed tree t)
    (ft : Direction → Features) :
    verdict t (featIndexes t ft) =
      BitVec.ofBool (tree.predict (featSeen (featKey ft))) := by
  have hindex : ∀ f, ∀ thr ∈ tree.thresholds f, (featIndexes t ft f).toNat ≤ tree.top f ∧
      ((featSeen (featKey ft) f : ℚ) ≤ thr ↔ (featIndexes t ft f).toNat ≤ tree.pos f thr) :=
    fun f thr hthr => featIndexes_compares h.inRange ht ft hthr
  obtain ⟨e, he, hcg⟩ := filter_actRules h
    fun f thr hthr => (hindex f thr hthr).1
  have heval : tree.eval (fun f thr => decide ((featIndexes t ft f).toNat ≤ tree.pos f thr)) =
      tree.eval fun f thr => decide ((featSeen (featKey ft) f : ℚ) ≤ thr) :=
    ThresholdTree.eval_congr fun f thr hthr => decide_eq_decide.2 (hindex f thr hthr).2.symm
  have hwinner : Table.winner ActEntry.priority
      (ActEntry.hits fun f => (featIndexes t ft f).toNat) t.actRules = some e := by
    rw [ht.actRules]
    exact Table.winner_eq_of_filter he
  rw [verdict, hwinner, Option.map_some, Option.getD_some, hcg, heval]
  rfl

/-! ## Reports -/

/-- A quotient up to an eighth and three. -/
def NearQuotient (x n q : ℕ) : Prop := q ≤ x / n ∧ 7 * (x : ℚ) / (8 * n) - 3 < q

/-- The features of one direction are the means of the sums they come with. -/
structure Features.Sound (ft : Features) : Prop where
  meanSZ : ft.nb ≠ 0 → NearQuotient ft.sum.toNat ft.nb.toNat ft.meanSZ.toNat
  meanIAT : ft.nb ≠ 0 → NearQuotient 33000 ft.nb.toNat ft.meanIAT.toNat
  empty : ft.nb = 0 → ft.meanSZ = 0 ∧ ft.stdSZ = 0 ∧ ft.meanIAT = 0 ∧ ft.stdIAT = 0

/-- A report says of its features what the tree says. -/
structure Report.Sound (tree : Tree) (r : Report) : Prop where
  features : ∀ d, (r.features d).Sound
  verdict : r.isCG = BitVec.ofBool (tree.predict (featSeen (featKey r.features)))

lemma Divides.nearQuotient {w n : ℕ} {p : PowParams} {x : BitVec w} (h : Divides w n p x) :
    NearQuotient x.toNat n (p.apply x).toNat := ⟨h.le_div, h.gt⟩

/-- A count that has an entry is divided by, whatever the scratch quotients were. -/
lemma sound_halfFeatures {nb : ℕ} {t : Tables} (ht : DivisionTables t nb) (d : Direction)
    (scratch : Division) {h : Half} (hle : h.nbelem.toNat ≤ nb) :
    (halfFeatures (divideHalf t d scratch h) h).Sound := by
  by_cases hn : h.nbelem = 0
  · have hpos : ¬ h.nbelem > 0 := by
      rw [hn]
      decide
    rw [halfFeatures, if_neg hpos]
    exact ⟨fun hne => absurd hn hne, fun hne => absurd hn hne, fun _ => ⟨rfl, rfl, rfl, rfl⟩⟩
  · have hpos : h.nbelem > 0 := (BitVec.pos_iff_ne_zero _).2 hn
    obtain ⟨e, es, hexp, hpow, hlook⟩ := rangeLookup_of_divisionTables ht hpos hle
    have hdivides : ∀ {w : ℕ}, w ≤ 255 → ∀ x : BitVec w, Divides w h.nbelem.toNat _ x :=
      fun hw x => divides_of_expansion hw hexp hpow x
    simp only [halfFeatures, divideHalf, if_pos hpos, hlook]
    exact ⟨fun _ => (hdivides (by decide) _).nearQuotient,
      fun _ => (hdivides (by decide) winSze).nearQuotient, fun h0 => absurd h0 hn⟩

lemma sound_windowFeatures {t : Tables} (ht : DivisionTables t 4095) (h : Direction → Half)
    (d : Direction) : (windowFeatures t h d).Sound := by
  have hlt : ∀ d, (h d).nbelem.toNat < 4096 := fun d => (h d).nbelem.isLt
  cases d <;> exact sound_halfFeatures ht _ _ (Nat.le_of_lt_succ (hlt _))

lemma sound_of_mem_reports (h : tree.Trained) {t : Tables} (ht : Installed tree t)
    {hash : BitVec 32 → BitVec 32 → Fin 1024} {regs : Registers} {ps : List Packet} {r : Report}
    (hr : r ∈ reports (trace (switchStep ⟨hash, t⟩) regs ps)) : r.Sound tree := by
  obtain ⟨⟨p, out⟩, hx, rfl⟩ := List.mem_filterMap.1 hr
  obtain ⟨pre, post, -, hout⟩ := (mem_trace_iff _).1 hx
  have hreport : (process ⟨hash, t⟩ (runState (switchStep ⟨hash, t⟩) regs pre) p).report =
    some r := hout
  by_cases hp : p.IsUdp
  · obtain ⟨-, rfl⟩ := report_eq_windowReport hp hreport
    exact ⟨fun d => sound_windowFeatures ht.divide _ d,
      verdict_installed h ht _⟩
  · rw [(process_of_not_isUdp ⟨hash, t⟩ _ hp).2] at hreport
    exact absurd hreport (by simp)

/-- **Every report of the started switch is sound**, for every hash, from any registers and for
every sequence of packets. -/
theorem reports_sound (h : tree.Trained) {t : Tables} (ht : Started tree t)
    (hash : BitVec 32 → BitVec 32 → Fin 1024) (regs : Registers) (ps : List Packet) :
    ∀ r ∈ reports (trace (switchStep ⟨hash, t⟩) regs ps), r.Sound tree :=
  fun _ hr => sound_of_mem_reports h (ht.installed h.inRange) hr

/-- A window with a single packet, whose mean inter-arrival time is above its bound. -/
theorem reports_sound_single_packet :
    ∃ t, Started (oneTestTree 0) t ∧
      ∀ r ∈ reports (trace (switchStep ⟨fun _ _ => 0, t⟩) Registers.zero
        [download 1000, download 40000]), r.Sound (oneTestTree 0) := by
  obtain ⟨t, ht⟩ := exists_started trained_oneTestTree.inRange (by decide)
  exact ⟨t, ht, reports_sound trained_oneTestTree ht _ _ _⟩

end FlowClassifier
