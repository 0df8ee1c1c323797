import FlowClassifier.Properties.Compile
import FlowClassifier.Properties.Division
import FlowClassifier.Properties.WindowedFold

/-!
# The domain of the feature tables

The rows of `FTR_Ruls.csv` end in `FTS_MAX`, and a feature above it misses its table: its index
stays zero, which the action rules take for a value below every threshold.  Whether a feature stays
below is decided by the accumulators at the end of a window.

`WindowFits` is the condition on the packets of one direction in a closed window.  The mean
inter-arrival time is the length of the window divided by the count, so that a short window with one
packet, or two on the downlink, is enough to leave the domain.  The other means and deviations leave
it when the sizes, their squared distances from the mean of the window before, or those of the
inter-arrival times, sum up to more than the count allows: about the count times the bound
(`dividendLimit_bounds`).  `coversDomain_iff` says that a run keeps to the domain exactly when every
window it closes fits.
-/

namespace FlowClassifier

open InversePowers Expo Windows

/-! ## The tables -/

/-- The division tables hold what the controller loads from the file for the counts up to 4095. -/
def DivideFromCsv (t : Tables) : Prop :=
  ∃ fuel text t₀ t₁, 6 ≤ fuel ∧ outCsv fuel 4095 = some text ∧ (∀ d, t₀.divide d = []) ∧
    writeApprRule text t₀ = .ok t₁ ∧ t.divide = t₁.divide

/-- Every feature table is empty, or holds what the controller loads from a row that starts at zero
and ends in `FTS_MAX`. -/
def FeatFromRows (t : Tables) : Prop :=
  ∀ f, t.feat f = [] ∨ ∃ thrs, thrs.length ≤ 62 ∧
    t.feat f = featEntries f (0 :: thrs ++ [ftsMax f])

lemma divisionTables_of_divideFromCsv {t : Tables} (h : DivideFromCsv t) :
    DivisionTables t 4095 := by
  obtain ⟨fuel, text, t₀, t₁, hfuel, htext, hempty, hload, hdiv⟩ := h
  obtain ⟨text', t', htext', hload', -, htables⟩ :=
    divisionTables_of_outCsv (by decide) le_rfl hfuel hempty
  rw [htext] at htext'
  obtain rfl := Option.some.inj htext'
  rw [hload] at hload'
  obtain rfl := Except.ok.inj hload'
  unfold DivisionTables
  rw [hdiv]
  exact htables

lemma featFromRows_loadTree {tree : Tree} (hcount : ∀ f, (tree.thresholds f).length ≤ 62)
    {t : Tables} (ht : ∀ f, t.feat f = []) : FeatFromRows (t.loadTree tree) := by
  intro f
  by_cases hne : tree.thresholds f = []
  · left
    simp [Tables.loadTree, Tables.loadFtr, ht, hne]
  · right
    refine ⟨((tree.thresholds f).insertionSort (· ≤ ·)).map Nat.floor, ?_, ?_⟩
    · rw [List.length_map, List.length_insertionSort]
      exact hcount f
    · simp [Tables.loadTree, Tables.loadFtr, ht, hne, Tree.cuts, Tree.thrs, sortThresh]

lemma index_ne_zero {f : Fin 12} {thrs : List ℕ} (hlen : thrs.length ≤ 62) {x : ℕ}
    (hx : x ≤ ftsMax f) :
    (rangeLookup (featEntries f (0 :: thrs ++ [ftsMax f])) x).getD 0 ≠ 0 := by
  generalize hns : 0 :: thrs ++ [ftsMax f] = ns
  have hcount : ns.length - 1 = thrs.length + 1 := by
    rw [← hns]
    simp
  have hlast : x ≤ ns.getD (thrs.length + 1) 0 := by
    rw [← hns, List.cons_append, List.getD_cons_succ, List.getD_append_right _ _ _ _ le_rfl]
    simpa using hx
  have hfirst : ns.getD 0 0 ≤ x := by
    rw [← hns]
    exact Nat.zero_le x
  obtain ⟨j, hj, hjn, hcell, -⟩ :=
    Cells.exists_first_inCell (b := fun i => ns.getD i 0) (Nat.succ_pos _) hfirst hlast
  have hmem : featEntry f ns j ∈ featEntries f ns := by
    rw [featEntries, hcount]
    exact List.mem_map_of_mem (List.mem_range'_1.2 ⟨hj, by omega⟩)
  have hhits : RangeEntry.hits x (featEntry f ns j) = true := by
    rw [RangeEntry.hits, Bool.and_eq_true]
    exact ⟨decide_eq_true hcell.1, decide_eq_true hcell.2⟩
  -- Whichever entry wins, its index is the number of a cell.
  have hsome : (Table.winner RangeEntry.priority (RangeEntry.hits x) (featEntries f ns)).isSome :=
    Table.winner_isSome_iff.2 ⟨_, hmem, hhits⟩
  obtain ⟨e, he⟩ := Option.isSome_iff_exists.1 hsome
  obtain ⟨i, hi, rfl⟩ := List.mem_map.1 (Table.mem_of_winner he).1
  rw [rangeLookup, he, Option.map_some, Option.getD_some]
  have hrange := List.mem_range'_1.1 hi
  intro hzero
  have hmod : i % 2 ^ 6 = 0 := by
    have hnat := congrArg BitVec.toNat hzero
    rwa [featEntry, BitVec.toNat_ofNat] at hnat
  omega

/-! ## Accumulators that fit -/

/-- The feature number of field `k` of one direction. -/
def featNo : Direction → Fin 6 → Fin 12
  | .DW, k => k.castLE (by decide)
  | .UP, k => k.natAdd 6

/-- The counts for which the mean inter-arrival time, the window divided by the count, is above its
bound. -/
def shortCounts : Direction → List ℕ
  | .DW => [1, 2]
  | .UP => [1]

/-- The largest dividend of `w` bits that the row of a count brings to at most `b`. -/
def dividendLimit (t : Tables) (d : Direction) (n w b : ℕ) : ℕ :=
  ((rangeLookup (t.divide d) n).map fun p => maxDividend p.powers (2 ^ w) b).getD 0

/-- The packets of one direction in a closed window keep its six features below their bounds.  The
means are those stored from the window before; a mean of zero stands for none. -/
structure WindowFits (t : Tables) (d : Direction) (muSZ : BitVec 32) (muIAT : BitVec 48)
    (w : List Packet) : Prop where
  nb : w.length % 2 ^ 12 ≤ ftsMax (featNo d 5)
  sum : sizes w % 2 ^ 32 ≤ ftsMax (featNo d 4)
  meanIAT : w.length % 2 ^ 12 ∉ shortCounts d
  meanSZ : w.length % 2 ^ 12 ≠ 0 →
    sizes w % 2 ^ 32 ≤ dividendLimit t d (w.length % 2 ^ 12) 32 (ftsMax (featNo d 0))
  stdSZ : w.length % 2 ^ 12 ≠ 0 → muSZ ≠ 0 →
    sqDev muSZ (w.map Packet.siz) % 2 ^ 32 ≤
      dividendLimit t d (w.length % 2 ^ 12) 32 (ftsMax (featNo d 1))
  stdIAT : w.length % 2 ^ 12 ≠ 0 → muIAT ≠ 0 →
    sqDev muIAT ((iats (w.map Packet.time)).rtakeWhile fun x => x ≠ 0) % 2 ^ 48 ≤
      dividendLimit t d (w.length % 2 ^ 12) 48 (ftsMax (featNo d 3))

/-- The accumulators of one direction keep its six features below their bounds. -/
structure HalfFits (t : Tables) (d : Direction) (h : Half) : Prop where
  sum : h.sumSZE.toNat ≤ ftsMax (featNo d 4)
  nb : h.nbelem.toNat ≤ ftsMax (featNo d 5)
  meanIAT : h.nbelem.toNat ∉ shortCounts d
  dividends : h.nbelem ≠ 0 →
    h.sumSZE.toNat ≤ dividendLimit t d h.nbelem.toNat 32 (ftsMax (featNo d 0)) ∧
      h.dltSZE.toNat ≤ dividendLimit t d h.nbelem.toNat 32 (ftsMax (featNo d 1)) ∧
      h.dltIAT.toNat ≤ dividendLimit t d h.nbelem.toNat 48 (ftsMax (featNo d 3))

/-- The six features of one direction are below their bounds. -/
structure FeaturesFit (d : Direction) (ft : Features) : Prop where
  meanSZ : ft.meanSZ.toNat ≤ ftsMax (featNo d 0)
  stdSZ : ft.stdSZ.toNat ≤ ftsMax (featNo d 1)
  meanIAT : ft.meanIAT.toNat ≤ ftsMax (featNo d 2)
  stdIAT : ft.stdIAT.toNat ≤ ftsMax (featNo d 3)
  sum : ft.sum.toNat ≤ ftsMax (featNo d 4)
  nb : ft.nb.toNat ≤ ftsMax (featNo d 5)

lemma featKey_le_iff (ft : Direction → Features) :
    (∀ f, featKey ft f ≤ ftsMax f) ↔ ∀ d, FeaturesFit d (ft d) := by
  constructor
  · intro h d
    cases d with
    | DW => exact ⟨h 0, h 1, h 2, h 3, h 4, h 5⟩
    | UP => exact ⟨h 6, h 7, h 8, h 9, h 10, h 11⟩
  · intro h f
    match f with
    | 0 => exact (h .DW).meanSZ
    | 1 => exact (h .DW).stdSZ
    | 2 => exact (h .DW).meanIAT
    | 3 => exact (h .DW).stdIAT
    | 4 => exact (h .DW).sum
    | 5 => exact (h .DW).nb
    | 6 => exact (h .UP).meanSZ
    | 7 => exact (h .UP).stdSZ
    | 8 => exact (h .UP).meanIAT
    | 9 => exact (h .UP).stdIAT
    | 10 => exact (h .UP).sum
    | 11 => exact (h .UP).nb

/-- The shifts bring a register under a bound, if and only if it is at most the limit of the
count. -/
lemma apply_le_iff {t : Tables} {d : Direction} {w n b : ℕ} {p : PowParams}
    (hlook : rangeLookup (t.divide d) n = some p) {x : BitVec w} (h : Divides w n p x) :
    (p.apply x).toNat ≤ b ↔ x.toNat ≤ dividendLimit t d n w b := by
  have hshifts : (p.apply x).toNat = shifts p.powers x.toNat := by
    rw [h.no_wrap]
    simp only [PowParams.powers, shifts_cons, shifts_nil, BitVec.toNat_ushiftRight,
      Nat.shiftRight_eq_div_pow, Nat.add_zero, Nat.add_assoc]
  rw [dividendLimit, hlook, Option.map_some, Option.getD_some, hshifts,
    le_maxDividend_iff (le_of_lt x.isLt)]

/-- **The limit of a count** is the count times what comes after the bound, less one, up to the
precision of the division; for a power of two it is exact. -/
theorem dividendLimit_bounds {t : Tables} (ht : DivisionTables t 4095) (d : Direction) {n w b : ℕ}
    (hn : 1 ≤ n) (hn' : n ≤ 4095) (hw : w < 255) (hfits : n * (b + 1) ≤ 2 ^ w) :
    n * (b + 1) ≤ dividendLimit t d n w b + 1 ∧
      7 * dividendLimit t d n w b < 8 * (n * (b + 3)) ∧
      ((∃ k, n = 2 ^ k) → dividendLimit t d n w b + 1 = n * (b + 1)) := by
  obtain ⟨e, es, hexp, hpow, hlook⟩ := rangeLookup_of_divisionTables ht hn hn'
  have hpos : 0 < n * (b + 1) := Nat.mul_pos hn (Nat.succ_pos b)
  -- The exponents of 255 that fill up the row do not count.
  have hpadded : ∀ s, s ≤ 2 ^ w →
      shifts (es ++ List.replicate (apprMaxSum - es.length) 255) s = shifts es s := by
    intro s hs
    have hlt : s < 2 ^ 255 := lt_of_le_of_lt hs (Nat.pow_lt_pow_right (by decide) hw)
    have hpad := shifts_padding (le_refl 255) (BitVec.ofNat 255 s) (apprMaxSum - es.length)
    rw [BitVec.toNat_ofNat, Nat.mod_eq_of_lt hlt] at hpad
    rw [shifts_append, hpad, Nat.add_zero]
  have hlimit : dividendLimit t d n w b =
      maxDividend (es ++ List.replicate (apprMaxSum - es.length) 255) (2 ^ w) b := by
    rw [dividendLimit, hlook, Option.map_some, Option.getD_some, powers_toParams hpow]
  have hle : dividendLimit t d n w b ≤ 2 ^ w := by
    rw [hlimit]
    exact Nat.findGreatest_le _
  have hmax : ∀ s, s ≤ 2 ^ w → (s ≤ dividendLimit t d n w b ↔ shifts es s ≤ b) := by
    intro s hs
    rw [hlimit, le_maxDividend_iff hs, hpadded s hs]
  have hself := (hmax _ hle).1 le_rfl
  have hlow : n * (b + 1) - 1 ≤ dividendLimit t d n w b := by
    refine (hmax _ (by omega)).2 ((shifts_le_div hexp _).trans (Nat.le_of_lt_succ ?_))
    exact Nat.div_lt_of_lt_mul (by rw [Nat.succ_eq_add_one]; omega)
  refine ⟨by omega, ?_, ?_⟩
  · have hgt := lt_shifts hexp (dividendLimit t d n w b)
    have hnq : (0 : ℚ) < n := by exact_mod_cast hn
    have hselfq : (shifts es (dividendLimit t d n w b) : ℚ) ≤ b := by exact_mod_cast hself
    have hquot : 7 * (dividendLimit t d n w b : ℚ) / (8 * n) < b + 3 := by linarith
    rw [div_lt_iff₀ (by linarith)] at hquot
    have hcast : (7 * dividendLimit t d n w b : ℚ) < 8 * (n * (b + 3)) := by linarith
    exact_mod_cast hcast
  · rintro ⟨k, hk⟩
    have hexact : shifts es (n * (b + 1)) = b + 1 := by
      have hpowe := eq_pow_of_expansion hexp hk
      rw [hexp.exact hpowe, shifts_cons, shifts_nil, Nat.add_zero, ← hpowe]
      exact Nat.mul_div_cancel_left _ hn
    have hnot : ¬ n * (b + 1) ≤ dividendLimit t d n w b := by
      rw [hmax _ hfits, hexact]
      omega
    omega

/-- The window divided by the count: the one or two shortest counts exceed the bound. -/
lemma apply_winSze_le_iff {n : ℕ} {p : PowParams} (hn : 1 ≤ n) (h : Divides 48 n p winSze)
    (d : Direction) : (p.apply winSze).toNat ≤ ftsMax (featNo d 2) ↔ n ∉ shortCounts d := by
  have hwin : winSze.toNat = 33000 := rfl
  have hle := h.le_div
  have hexact := h.exact
  rw [hwin] at hle hexact
  by_cases h1 : n = 1
  · subst h1
    rw [hexact ⟨0, rfl⟩]
    cases d <;> decide
  · by_cases h2 : n = 2
    · subst h2
      rw [hexact ⟨1, rfl⟩]
      cases d <;> decide
    · have hthree : 33000 / n ≤ 33000 / 3 := Nat.div_le_div_left (by omega) (by decide)
      have hbound : 33000 / 3 ≤ ftsMax (featNo d 2) := by cases d <;> decide
      have hcounts : n ∉ shortCounts d := by cases d <;> simp [shortCounts, h1, h2]
      exact iff_of_true (le_trans hle (le_trans hthree hbound)) hcounts

/-- **One direction of a closed window.** -/
theorem featuresFit_iff {t : Tables} (ht : DivisionTables t 4095) (d : Direction) (h : Half) :
    FeaturesFit d (halfFeatures (divideHalf t d .zero h) h) ↔ HalfFits t d h := by
  by_cases hn : h.nbelem = 0
  · -- Without packets all means are zero.
    have hpos : ¬ h.nbelem > 0 := by
      rw [hn]
      decide
    have hcounts : h.nbelem.toNat ∉ shortCounts d := by
      rw [hn]
      cases d <;> decide
    rw [halfFeatures, if_neg hpos]
    constructor
    · intro hft
      exact ⟨hft.sum, hft.nb, hcounts, fun hne => absurd hn hne⟩
    · intro hh
      exact ⟨Nat.zero_le _, Nat.zero_le _, Nat.zero_le _, Nat.zero_le _, hh.sum, hh.nb⟩
  · obtain ⟨hone, p, hlook, hsize, htime⟩ := exists_divides ht d hn
    have hpos : h.nbelem > 0 := hone
    have hft : halfFeatures (divideHalf t d .zero h) h =
        ⟨p.apply h.sumSZE, p.apply h.dltSZE, p.apply winSze, p.apply h.dltIAT, h.sumSZE,
          h.nbelem⟩ := by
      simp only [halfFeatures, divideHalf, if_pos hpos, hlook, PowParams.division]
    rw [hft]
    constructor
    · rintro ⟨hmean, hstd, hiat, hdev, hsum, hnb⟩
      refine ⟨hsum, hnb, (apply_winSze_le_iff hone (htime winSze) d).1 hiat, fun _ => ?_⟩
      exact ⟨(apply_le_iff hlook (hsize _)).1 hmean, (apply_le_iff hlook (hsize _)).1 hstd,
        (apply_le_iff hlook (htime _)).1 hdev⟩
    · rintro ⟨hsum, hnb, hiat, hdividends⟩
      obtain ⟨hmean, hstd, hdev⟩ := hdividends hn
      exact ⟨(apply_le_iff hlook (hsize _)).2 hmean, (apply_le_iff hlook (hsize _)).2 hstd,
        (apply_winSze_le_iff hone (htime winSze) d).2 hiat, (apply_le_iff hlook (htime _)).2 hdev,
        hsum, hnb⟩

/-- **A closed window** stays in the domain, if and only if the accumulators of both directions
fit. -/
theorem windowFeatures_le_iff {t : Tables} (ht : DivisionTables t 4095) (h : Direction → Half) :
    (∀ f, featKey (windowFeatures t h) f ≤ ftsMax f) ↔ ∀ d, HalfFits t d (h d) := by
  have hfeatures : ∀ d, windowFeatures t h d = halfFeatures (divideHalf t d .zero (h d)) (h d) := by
    intro d
    cases d with
    | DW => rfl
    | UP => exact windowFeatures_up_of_divisionTables ht h
  rw [featKey_le_iff]
  simp only [hfeatures, featuresFit_iff ht]

/-! ## Runs -/

/-- At every end of window of a run, all features are at most `FTS_MAX`, and no feature table with
entries leaves its index at zero. -/
def CoversDomain (cfg : Config) (ps : List Packet) : Prop :=
  ∀ pre p post r, ps = pre ++ p :: post → (process cfg (switchRun cfg pre) p).report = some r →
    (∀ f, featKey r.features f ≤ ftsMax f) ∧ ∀ f, cfg.tables.feat f ≠ [] → r.actionFt f ≠ 0

/-- Every window a run closes fits. -/
def ClosesFitting (cfg : Config) (ps : List Packet) : Prop :=
  ∀ pre p post, ps = pre ++ p :: post → ClosesWindow cfg pre p → ∀ d,
    let h := ((switchRun cfg pre).cell (flowIndex cfg p)).half d
    WindowFits cfg.tables d h.lstMuSZE h.lstMuIAT (openIn cfg (flowIndex cfg p) d pre)

variable {cfg : Config} {ps : List Packet}

/-- A sum of deviations that is only kept once there is a mean. -/
private lemma toNat_dev_le_iff {v w : ℕ} {mu : BitVec v} {x : BitVec w} {z : ℤ}
    (hx : x = if mu = 0 then 0 else BitVec.ofInt w z) (b : ℕ) :
    x.toNat ≤ b ↔ (mu ≠ 0 → z % 2 ^ w ≤ b) := by
  by_cases hmu : mu = 0
  · rw [hx, if_pos hmu]
    exact iff_of_true (Nat.zero_le b) fun hne => absurd hmu hne
  · have hpow : ((2 ^ w : ℕ) : ℤ) = 2 ^ w := by norm_cast
    rw [hx, if_neg hmu, BitVec.toNat_ofInt, Int.toNat_le, hpow]
    exact ⟨fun hle _ => hle, fun hle => hle hmu⟩

lemma halfFits_iff_windowFits {pre : List Packet} (hudp : ∀ p ∈ pre, p.IsUdp)
    (hpos : ∀ p ∈ pre, p.time ≠ 0) (hmono : pre.Pairwise fun p q => p.time ≤ q.time)
    (i : Fin 1024) (d : Direction) :
    let h := ((switchRun cfg pre).cell i).half d
    HalfFits cfg.tables d h ↔
      WindowFits cfg.tables d h.lstMuSZE h.lstMuIAT (openIn cfg i d pre) := by
  intro h
  obtain ⟨hnb, hsum, hdlt, hiat⟩ := half_switchRun_fields cfg i d hudp hpos hmono
  have hnb' : h.nbelem.toNat = (openIn cfg i d pre).length % 2 ^ 12 := by
    rw [hnb, BitVec.toNat_ofNat]
  have hsum' : h.sumSZE.toNat = sizes (openIn cfg i d pre) % 2 ^ 32 := by
    rw [hsum, BitVec.toNat_ofNat]
  have hne : h.nbelem ≠ 0 ↔ (openIn cfg i d pre).length % 2 ^ 12 ≠ 0 := by
    rw [← hnb', not_iff_not]
    exact ⟨fun h0 => congrArg BitVec.toNat h0, fun h0 => BitVec.eq_of_toNat_eq h0⟩
  have hdlt' := toNat_dev_le_iff hdlt
  have hiat' := toNat_dev_le_iff (hiat.trans (iatDev_eq _ _))
  constructor
  · rintro ⟨hs, hn, hcounts, hdividends⟩
    rw [hnb'] at hn hcounts hdividends
    rw [hsum'] at hs hdividends
    exact ⟨hn, hs, hcounts, fun h0 => (hdividends (hne.2 h0)).1,
      fun h0 => (hdlt' _).1 (hdividends (hne.2 h0)).2.1,
      fun h0 => (hiat' _).1 (hdividends (hne.2 h0)).2.2⟩
  · rintro ⟨hn, hs, hcounts, hmean, hstd, hdev⟩
    rw [← hnb'] at hn hcounts hmean hstd hdev
    rw [← hsum'] at hs hmean
    refine ⟨hs, hn, hcounts, fun h0 => ?_⟩
    have hcount : h.nbelem.toNat ≠ 0 := by
      rw [hnb']
      exact hne.1 h0
    exact ⟨hmean hcount, (hdlt' _).2 (hstd hcount), (hiat' _).2 (hdev hcount)⟩

/-- **One end of a window.**  The report is in the domain exactly when both directions fit. -/
lemma report_le_iff (hdiv : DivideFromCsv cfg.tables) {pre : List Packet} {p : Packet}
    (hudp : ∀ q ∈ pre ++ [p], q.IsUdp) (hpos : ∀ q ∈ pre ++ [p], q.time ≠ 0)
    (hmono : (pre ++ [p]).Pairwise fun q r => q.time ≤ r.time) :
    (∀ f, featKey (windowFeatures cfg.tables
        ((switchRun cfg pre).cell (flowIndex cfg p)).half) f ≤ ftsMax f) ↔
      ∀ d, let h := ((switchRun cfg pre).cell (flowIndex cfg p)).half d
        WindowFits cfg.tables d h.lstMuSZE h.lstMuIAT (openIn cfg (flowIndex cfg p) d pre) := by
  rw [windowFeatures_le_iff (divisionTables_of_divideFromCsv hdiv)]
  refine forall_congr' fun d => ?_
  exact halfFits_iff_windowFits (fun q hq => hudp q (List.mem_append_left _ hq))
    (fun q hq => hpos q (List.mem_append_left _ hq)) (List.pairwise_append.1 hmono).1 _ d

section Run

variable (hdiv : DivideFromCsv cfg.tables) (hfeat : FeatFromRows cfg.tables)
  (hudp : ∀ p ∈ ps, p.IsUdp) (hpos : ∀ p ∈ ps, p.time ≠ 0)
  (hmono : ps.Pairwise fun p q => p.time ≤ q.time)
include hdiv hudp hpos hmono

lemma CoversDomain.closesFitting (h : CoversDomain cfg ps) : ClosesFitting cfg ps := by
  rintro pre p post rfl hclose
  have hsplit : pre ++ p :: post = (pre ++ [p]) ++ post := by simp
  rw [hsplit] at hudp hpos hmono
  have hudp' : ∀ q ∈ pre ++ [p], q.IsUdp := fun q hq => hudp q (List.mem_append_left _ hq)
  have hpos' : ∀ q ∈ pre ++ [p], q.time ≠ 0 := fun q hq => hpos q (List.mem_append_left _ hq)
  have hmono' := (List.pairwise_append.1 hmono).1
  have hw := (windowOver_switchRun_iff hudp' hpos' hmono').2 hclose
  obtain ⟨hle, -⟩ := h pre p post _ rfl (report_of_windowOver (hudp' p (by simp)) hw)
  exact (report_le_iff hdiv hudp' hpos' hmono').1 hle

include hfeat in
lemma ClosesFitting.coversDomain (h : ClosesFitting cfg ps) : CoversDomain cfg ps := by
  rintro pre p post r rfl hr
  have hsplit : pre ++ p :: post = (pre ++ [p]) ++ post := by simp
  rw [hsplit] at hudp hpos hmono
  have hudp' : ∀ q ∈ pre ++ [p], q.IsUdp := fun q hq => hudp q (List.mem_append_left _ hq)
  have hpos' : ∀ q ∈ pre ++ [p], q.time ≠ 0 := fun q hq => hpos q (List.mem_append_left _ hq)
  have hmono' := (List.pairwise_append.1 hmono).1
  obtain ⟨hw, rfl⟩ := report_eq_windowReport (hudp' p (by simp)) hr
  have hle := (report_le_iff hdiv hudp' hpos' hmono').2
    (h pre p post rfl ((windowOver_switchRun_iff hudp' hpos' hmono').1 hw))
  refine ⟨hle, fun f hne => ?_⟩
  rcases hfeat f with hnil | ⟨thrs, hlen, hrow⟩
  · exact absurd hnil hne
  · have hindex := index_ne_zero hlen (hle f)
    rw [← hrow] at hindex
    exact hindex

end Run

/-- **When the classified vectors stay in the domain of the feature tables.**  With division tables
loaded from `Out.csv` and feature tables loaded from rows that end in `FTS_MAX`, a run keeps to the
domain exactly when the packets of every window it closes fit. -/
theorem coversDomain_iff (hdiv : DivideFromCsv cfg.tables) (hfeat : FeatFromRows cfg.tables)
    (hudp : ∀ p ∈ ps, p.IsUdp) (hpos : ∀ p ∈ ps, p.time ≠ 0)
    (hmono : ps.Pairwise fun p q => p.time ≤ q.time) :
    CoversDomain cfg ps ↔ ClosesFitting cfg ps :=
  ⟨fun h => h.closesFitting hdiv hudp hpos hmono,
    fun h => h.coversDomain hdiv hfeat hudp hpos hmono⟩

/-! ## Two runs -/

lemma exists_divideFromCsv :
    ∃ D : Direction → List (RangeEntry PowParams), ∀ t : Tables, t.divide = D →
      DivideFromCsv t := by
  obtain ⟨text, t', htext, hload, -, -⟩ :=
    divisionTables_of_outCsv (by decide) (le_refl 4095) (le_refl 6) (t := Tables.empty) fun _ => rfl
  exact ⟨t'.divide, fun t ht => ⟨6, text, _, t', le_refl 6, htext, fun _ => rfl, hload, ht⟩⟩

/-- Clients in 192.168/16, one index, the given division tables and the tables of a tree. -/
def lanConfig (i : Fin 1024) (tree : Tree) (D : Direction → List (RangeEntry PowParams)) :
    Config where
  hash := fun _ _ => i
  tables := { Tables.empty with direc := [0xC0A8], divide := D }.loadTree tree

/-- A packet to the client, with a payload of 1000 bytes. -/
def download (t : BitVec 48) : Packet := udpPacket 0x0A000002 0xC0A80001 1028 t

/-- A packet from the client, with a payload of 1000 bytes. -/
def upload (t : BitVec 48) : Packet := udpPacket 0xC0A80001 0x0A000002 1028 t

lemma isUdp_upload (t : BitVec 48) : (upload t).IsUdp := isUdp_udpPacket ..

section TwoRuns

variable {i : Fin 1024} {tree : Tree} {D : Direction → List (RangeEntry PowParams)}

private lemma featFromRows_lanConfig (hcount : ∀ f, (tree.thresholds f).length ≤ 62) :
    FeatFromRows (lanConfig i tree D).tables :=
  featFromRows_loadTree hcount fun _ => rfl

lemma flowIndex_lanConfig (p : Packet) : flowIndex (lanConfig i tree D) p = i := by
  unfold flowIndex
  cases flowDir (lanConfig i tree D).tables p <;> rfl

lemma packetsAt_lanConfig (ps : List Packet) : packetsAt (lanConfig i tree D) i ps = ps :=
  List.filter_eq_self.2 fun p _ => decide_eq_true (flowIndex_lanConfig p)

lemma cell_lanConfig (ps : List Packet) :
    (switchRun (lanConfig i tree D) ps).cell i = cellRun (lanConfig i tree D) ps := by
  rw [cell_switchRun, packetsAt_lanConfig]

lemma cellRun_singleton {p : Packet} (hp : p.IsUdp) :
    cellRun cfg [p] = Cell.zero.init (flowDir cfg.tables p) p.siz p.time := by
  have hzero : ¬ Cell.zero.WindowOver p.time := fun h => h.1 rfl
  have hfirst : Cell.zero.flowFrstTime = 0 := rfl
  have hstep := cellStep_of_flowTracker cfg (c := Cell.zero) rfl p
  rw [if_neg hzero, if_pos hfirst] at hstep
  show (packetStep cfg Cell.zero p).1 = _
  rw [packetStep_of_isUdp cfg _ hp, hstep]

/-- A window with two packets from the client, closed by a third one, is in the domain. -/
theorem coversDomain_iff_upload :
    ∃ D, let cfg := lanConfig 0 (twiceTestedTree 5 0) D
      DivideFromCsv cfg.tables ∧ CoversDomain cfg [upload 1000, upload 2000, upload 40000] := by
  obtain ⟨D, hD⟩ := exists_divideFromCsv
  refine ⟨D, ?_⟩
  intro cfg
  have hdiv : DivideFromCsv cfg.tables := hD _ rfl
  refine ⟨hdiv, (coversDomain_iff hdiv (featFromRows_lanConfig (by decide)) (by decide) (by decide)
    (by decide)).2 ?_⟩
  have hone : cellRun cfg [upload 1000] = Cell.zero.init .UP 1000 1000 := by
    rw [cellRun_singleton (isUdp_upload 1000)]
    rfl
  have htwo : cellRun cfg ([upload 1000] ++ [upload 2000]) =
      (Cell.zero.init .UP 1000 1000).update .UP 1000 2000 := by
    have hjoins : ¬ (Cell.zero.init .UP 1000 1000).Opens (upload 2000) := by decide
    rw [cellRun_concat, hone, packetStep_of_isUdp _ _ (isUdp_upload 2000),
      cellStep_of_not_opens _ hjoins]
    rfl
  intro pre p post heq hclose d h
  obtain ⟨o, w, hopen, hs⟩ := hclose
  have hh : h = (cellRun cfg pre).half d := by
    rw [← cell_lanConfig (i := 0)]
    exact congrArg (fun i => ((switchRun cfg pre).cell i).half d) (flowIndex_lanConfig p)
  rw [flowIndex_lanConfig, packetsAt_lanConfig] at hopen
  rw [openIn, flowIndex_lanConfig, packetsAt_lanConfig]
  rcases pre with _ | ⟨a, _ | ⟨b, _ | ⟨c, pre⟩⟩⟩
  · exact absurd hopen (by simp)
  · simp only [List.cons_append, List.nil_append, List.cons.injEq] at heq
    obtain ⟨rfl, rfl, -⟩ := heq
    obtain rfl : upload 1000 = o := (List.cons.inj hopen).1
    exact absurd hs (by decide)
  · simp only [List.cons_append, List.nil_append, List.cons.injEq] at heq
    obtain ⟨rfl, rfl, rfl, -⟩ := heq
    -- No window has been closed before, so that there is no mean yet.
    obtain ⟨hmuSZ, hmuIAT⟩ : h.lstMuSZE = 0 ∧ h.lstMuIAT = 0 := by
      have htwo' : cellRun cfg [upload 1000, upload 2000] = _ := htwo
      rw [hh, htwo']
      cases d <;> exact ⟨rfl, rfl⟩
    rw [hmuSZ, hmuIAT]
    cases d with
    | DW =>
        have hwin : (cut sameWindow [upload 1000, upload 2000]).openW.filter
            (fun p => flowDir cfg.tables p = .DW) = [] := rfl
        rw [hwin]
        exact ⟨by decide, by decide, by decide, fun h0 => absurd rfl h0, fun _ h0 => absurd rfl h0,
          fun _ h0 => absurd rfl h0⟩
    | UP =>
        have hwin : (cut sameWindow [upload 1000, upload 2000]).openW.filter
            (fun p => flowDir cfg.tables p = .UP) = [upload 1000, upload 2000] := rfl
        have hlimit := (dividendLimit_bounds (divisionTables_of_divideFromCsv hdiv) .UP
          (n := 2) (w := 32) (b := 1023) (by decide) (by decide) (by decide) (by decide)).1
        rw [hwin]
        refine ⟨by decide, by decide, by decide, fun _ => ?_, fun _ h0 => absurd rfl h0,
          fun _ h0 => absurd rfl h0⟩
        show 2000 ≤ dividendLimit cfg.tables .UP 2 32 1023
        omega
  · simp at heq

/-- A download whose window closes after a single packet leaves it: the mean inter-arrival time is
33000, and `FTS_MAX` stops at 16383. -/
theorem not_coversDomain_single_packet :
    ∃ D, let cfg := lanConfig 0 (twiceTestedTree 5 0) D
      DivideFromCsv cfg.tables ∧ FeatFromRows cfg.tables ∧
      (∀ p ∈ [download 1000, download 40000], p.IsUdp ∧ p.time ≠ 0) ∧
      [download 1000, download 40000].Pairwise (fun p q => p.time ≤ q.time) ∧
      ¬ CoversDomain cfg [download 1000, download 40000] := by
  obtain ⟨D, hD⟩ := exists_divideFromCsv
  refine ⟨D, ?_⟩
  intro cfg
  have hdiv : DivideFromCsv cfg.tables := hD _ rfl
  refine ⟨hdiv, featFromRows_lanConfig (by decide), by decide, by decide, fun hcov => ?_⟩
  have hfits := hcov.closesFitting hdiv (by decide) (by decide) (by decide) [download 1000]
    (download 40000) [] rfl ⟨download 1000, [], rfl, rfl⟩ .DW
  have hone : openIn cfg (flowIndex cfg (download 40000)) .DW [download 1000] = [download 1000] :=
    rfl
  have hcount := hfits.meanIAT
  rw [hone] at hcount
  exact hcount (by decide)

end TwoRuns

end FlowClassifier
