import FlowClassifier.Properties.Classifier
import FlowClassifier.Switch.DebugLog

/-!
# The order of the rules

A table with two matching entries of the same priority leaves the choice to the switch; the software
switch takes the one that was installed first.  Which of the tables of a started switch depend on
this?  Only those of the features, at the truncated thresholds, where two cells meet.  The tables of
the division and of the leaves give every entry a priority of its own or keep the entries apart.

`reports_perm_iff` says it for runs: whatever order the same entries are installed in, the switch
reports the same, exactly when no feature it reports is a truncated threshold.  A report has the
twelve indexes of its features, which the program does not write to its log: where a feature is a
truncated threshold the verdict may still be the same for all orders.
-/

namespace FlowClassifier

open Mealy

/-- The same entries, installed in another order. -/
structure Tables.Perm (t t' : Tables) : Prop where
  direc : t.direc.Perm t'.direc
  ipv4Lpm : t.ipv4Lpm.Perm t'.ipv4Lpm
  ipv4LpmDefault : t.ipv4LpmDefault = t'.ipv4LpmDefault
  divide : ∀ d, (t.divide d).Perm (t'.divide d)
  feat : ∀ f, (t.feat f).Perm (t'.feat f)
  actRules : t.actRules.Perm t'.actRules

variable {tree : Tree} {t t' : Tables}

/-- A feature lies where two cells of its table meet. -/
def OnThreshold (tree : Tree) (x : Fin 12 → ℕ) : Prop :=
  ∃ f, ∃ thr ∈ tree.thresholds f, x f = ⌊thr⌋₊

/-! ## Tables without ties -/

lemma rangeLookup_perm {α : Type} {es es' : List (RangeEntry α)} (hperm : es.Perm es') {x : ℕ}
    (hties : ∀ e ∈ es, ∀ e' ∈ es, e.hits x = true → e'.hits x = true → e = e') :
    rangeLookup es' x = rangeLookup es x := by
  rw [rangeLookup, rangeLookup,
    Table.winner_perm hperm fun e he e' he' hhit hhit' _ => hties e he e' he' hhit hhit']

lemma rangeLookup_divide_perm (hdiv : DivisionTables t 4095) (hperm : t.Perm t') (d : Direction)
    {n : BitVec 12} (hn : n > 0) :
    rangeLookup (t'.divide d) n.toNat = rangeLookup (t.divide d) n.toNat := by
  have hlt := n.isLt
  obtain ⟨_, _, -, -, hentry⟩ := hdiv n.toNat hn (by omega)
  obtain ⟨entry, hfilter, -⟩ := hentry d
  refine rangeLookup_perm (hperm.divide d) fun e he e' he' hhit hhit' => ?_
  have hmem := List.mem_filter.2 ⟨he, hhit⟩
  have hmem' := List.mem_filter.2 ⟨he', hhit'⟩
  rw [hfilter] at hmem hmem'
  rw [List.mem_singleton.1 hmem, List.mem_singleton.1 hmem']

lemma hits_featEntry {f : Fin 12} {x : ℕ} (i : ℕ) :
    (featEntry f (tree.cuts f) i).hits x = decide (Cells.InCell (tree.cut f) x i) :=
  congrFun hits_comp_featEntry i

/-- Two cells of a feature meet at a truncated threshold only. -/
lemma eq_of_featEntries_hits (h : tree.InRange) {f : Fin 12} {x : ℕ}
    (hx : ∀ thr ∈ tree.thresholds f, x ≠ ⌊thr⌋₊) {e e' : RangeEntry (BitVec 6)}
    (he : e ∈ featEntries f (tree.cuts f)) (he' : e' ∈ featEntries f (tree.cuts f))
    (hhit : e.hits x = true) (hhit' : e'.hits x = true) : e = e' := by
  rw [featEntries_cuts] at he he'
  obtain ⟨i, hi, rfl⟩ := List.mem_map.1 he
  obtain ⟨i', hi', rfl⟩ := List.mem_map.1 he'
  have hcell : Cells.InCell (tree.cut f) x i := of_decide_eq_true (hits_featEntry i ▸ hhit)
  have hcell' : Cells.InCell (tree.cut f) x i' := of_decide_eq_true (hits_featEntry i' ▸ hhit')
  have hrange := List.mem_range'_1.1 hi
  have hrange' := List.mem_range'_1.1 hi'
  have hmeet : ∀ {a b : ℕ}, 1 ≤ a → b ≤ tree.top f → a < b → Cells.InCell (tree.cut f) x a →
      ¬ Cells.InCell (tree.cut f) x b := by
    intro a b ha hb hab hina hinb
    obtain ⟨k, rfl⟩ : ∃ k, a = k + 1 := ⟨a - 1, by omega⟩
    have hk : k < (tree.sorted f).length := by
      rw [top_eq] at hb
      omega
    have hthr : (tree.sorted f)[k] ∈ tree.thresholds f := mem_sorted.1 (List.getElem_mem hk)
    have hcut := cut_succ hk
    have hxa := Cells.eq_of_inCell_of_lt (fun _ _ => cut_mono h) hb hab hina hinb
    exact hx _ hthr (hxa.trans hcut)
  rcases Nat.lt_trichotomy i i' with hlt | rfl | hgt
  · exact absurd hcell' (hmeet hrange.1 (by omega) hlt hcell)
  · rfl
  · exact absurd hcell (hmeet hrange'.1 (by omega) hgt hcell')

lemma map_priority_actEntriesFrom (prio : ℕ) (rs : List (Bool × Dict (Fin 12) (ℕ × ℕ))) :
    (actEntriesFrom prio rs).map ActEntry.priority = List.range' prio rs.length := by
  induction rs generalizing prio with
  | nil => rfl
  | cons r rs ih =>
      rw [actEntriesFrom, List.map_cons, ih, List.length_cons, List.range'_succ]

lemma eq_of_actEntriesFrom_priority {prio : ℕ} {rs : List (Bool × Dict (Fin 12) (ℕ × ℕ))}
    {e e' : ActEntry} (he : e ∈ actEntriesFrom prio rs) (he' : e' ∈ actEntriesFrom prio rs)
    (hprio : e.priority = e'.priority) : e = e' := by
  have hnodup : ((actEntriesFrom prio rs).map ActEntry.priority).Nodup := by
    rw [map_priority_actEntriesFrom]
    exact List.nodup_range'
  exact List.inj_on_of_nodup_map hnodup he he' hprio

/-! ## One packet -/

section Packets

variable (ht : Installed tree t) (hperm : t.Perm t')
include hperm

lemma flowDir_perm (p : Packet) : flowDir t' p = flowDir t p := by
  rw [flowDir, flowDir, isClient, isClient, hperm.direc.contains_eq]

lemma flowIndex_perm (hash : BitVec 32 → BitVec 32 → Fin 1024) (p : Packet) :
    flowIndex ⟨hash, t'⟩ p = flowIndex ⟨hash, t⟩ p := by
  simp only [flowIndex, flowDir_perm hperm]

include ht

lemma divideHalf_perm (d : Direction) (q : Division) (h : Half) :
    divideHalf t' d q h = divideHalf t d q h := by
  unfold divideHalf
  split
  · rename_i hn
    rw [rangeLookup_divide_perm ht.divide hperm d hn]
  · rfl

lemma windowFeatures_perm (h : Direction → Half) : windowFeatures t' h = windowFeatures t h := by
  funext d
  cases d with
  | DW => simp only [windowFeatures, divideHalf_perm ht hperm]
  | UP => simp only [windowFeatures, divideHalf_perm ht hperm]

lemma verdict_perm (a : Fin 12 → BitVec 6) : verdict t' a = verdict t a := by
  rw [verdict, verdict, Table.winner_perm hperm.actRules]
  intro e he e' he' _ _ hprio
  rw [ht.actRules] at he he'
  exact eq_of_actEntriesFrom_priority he he' hprio

lemma featIndexes_perm (h : tree.InRange) {ft : Direction → Features}
    (hoff : ¬ OnThreshold tree (featKey ft)) : featIndexes t' ft = featIndexes t ft := by
  funext f
  rw [featIndexes, featIndexes, rangeLookup_perm (hperm.feat f)]
  intro e he e' he' hhit hhit'
  rw [ht.feat] at he he'
  split at he
  · exact absurd he List.not_mem_nil
  · rename_i hne
    rw [if_neg hne] at he'
    exact eq_of_featEntries_hits h (fun thr hthr hx => hoff ⟨f, thr, hthr, hx⟩) he he' hhit hhit'

/-- A packet does the same, unless it closes a window with a feature on a threshold. -/
lemma cellStep_perm (h : tree.InRange) {hash : BitVec 32 → BitVec 32 → Fin 1024} {c : Cell}
    {p : Packet}
    (hoff : c.WindowOver p.time → ¬ OnThreshold tree (featKey (windowFeatures t c.half))) :
    cellStep ⟨hash, t'⟩ c p = cellStep ⟨hash, t⟩ c p := by
  have hidx := flowIndex_perm hperm hash p
  have hdir := flowDir_perm hperm p
  unfold cellStep
  dsimp only
  rw [hidx, hdir]
  split
  · rename_i hw
    have hreport : windowReport t' (flowIndex ⟨hash, t⟩ p) c.half =
        windowReport t (flowIndex ⟨hash, t⟩ p) c.half := by
      simp only [windowReport, windowFeatures_perm ht hperm, featIndexes_perm ht hperm h (hoff hw),
        verdict_perm ht hperm]
    have hclose : c.close t' (flowIndex ⟨hash, t⟩ p) = c.close t (flowIndex ⟨hash, t⟩ p) := by
      simp only [Cell.close, windowFeatures_perm ht hperm, featIndexes_perm ht hperm h (hoff hw),
        verdict_perm ht hperm]
    rw [hreport, hclose]
  · rfl

lemma packetStep_perm (h : tree.InRange) {hash : BitVec 32 → BitVec 32 → Fin 1024} {c : Cell}
    {p : Packet}
    (hoff : p.IsUdp → c.WindowOver p.time →
      ¬ OnThreshold tree (featKey (windowFeatures t c.half))) :
    packetStep ⟨hash, t'⟩ c p = packetStep ⟨hash, t⟩ c p := by
  by_cases hp : p.IsUdp
  · rw [packetStep_of_isUdp _ _ hp, packetStep_of_isUdp _ _ hp]
    exact cellStep_perm ht hperm h (hoff hp)
  · rw [packetStep_of_not_isUdp _ _ hp, packetStep_of_not_isUdp _ _ hp]

/-! ## Runs -/

lemma switchStep_perm (h : tree.InRange) {hash : BitVec 32 → BitVec 32 → Fin 1024}
    {regs regs' : Registers} (hregs : ∀ i, regs'.cell i = regs.cell i) {p : Packet}
    (hoff : ∀ r, (switchStep ⟨hash, t⟩ regs p).2 = some r →
      ¬ OnThreshold tree (featKey r.features)) :
    (switchStep ⟨hash, t'⟩ regs' p).2 = (switchStep ⟨hash, t⟩ regs p).2 ∧
      ∀ i, (switchStep ⟨hash, t'⟩ regs' p).1.cell i = (switchStep ⟨hash, t⟩ regs p).1.cell i := by
  have hroute := switchStep_routed ⟨hash, t⟩
  have hroute' := switchStep_routed ⟨hash, t'⟩
  have hidx := flowIndex_perm hperm hash p
  have hstep : packetStep ⟨hash, t'⟩ (regs.cell (flowIndex ⟨hash, t⟩ p)) p =
      packetStep ⟨hash, t⟩ (regs.cell (flowIndex ⟨hash, t⟩ p)) p :=
    packetStep_perm ht hperm h fun hp hw => hoff _ (report_of_windowOver hp hw)
  refine ⟨by rw [hroute'.out, hroute.out, hidx, hregs, hstep], fun i => ?_⟩
  by_cases hi : i = flowIndex ⟨hash, t⟩ p
  · rw [hi, hroute.own, ← hstep, ← hidx, hroute'.own, hidx, hregs]
  · have hi' : i ≠ flowIndex ⟨hash, t'⟩ p := fun hi' => hi (hi'.trans hidx)
    rw [hroute.other _ _ _ hi, hroute'.other _ _ _ hi', hregs]

lemma trace_perm (h : tree.InRange) {hash : BitVec 32 → BitVec 32 → Fin 1024} (ps : List Packet)
    {regs regs' : Registers} (hregs : ∀ i, regs'.cell i = regs.cell i)
    (hoff : ∀ r ∈ reports (trace (switchStep ⟨hash, t⟩) regs ps),
      ¬ OnThreshold tree (featKey r.features)) :
    trace (switchStep ⟨hash, t'⟩) regs' ps = trace (switchStep ⟨hash, t⟩) regs ps := by
  induction ps generalizing regs regs' with
  | nil => rfl
  | cons p ps ih =>
      rw [trace_cons, reports_cons] at hoff
      have hfirst : ∀ r, (switchStep ⟨hash, t⟩ regs p).2 = some r →
          ¬ OnThreshold tree (featKey r.features) := by
        intro r hr
        refine hoff r (List.mem_append_left _ ?_)
        rw [hr]
        exact List.mem_singleton.2 rfl
      obtain ⟨hout, hnext⟩ := switchStep_perm ht hperm h hregs hfirst
      rw [trace_cons, trace_cons, hout, ih hnext fun r hr => hoff r (List.mem_append_right _ hr)]

end Packets

/-! ## Where the order decides -/

/-- One entry of a feature table is installed before the others. -/
def Tables.installFirst (f : Fin 12) (e : RangeEntry (BitVec 6)) (t : Tables) : Tables :=
  { t with feat := fun g => if g = f then e :: (t.feat f).erase e else t.feat g }

lemma perm_installFirst {f : Fin 12} {e : RangeEntry (BitVec 6)} (he : e ∈ t.feat f) :
    t.Perm (t.installFirst f e) := by
  refine ⟨.refl _, .refl _, rfl, fun _ => .refl _, fun g => ?_, .refl _⟩
  by_cases hg : g = f
  · subst hg
    simp only [Tables.installFirst, if_true]
    exact List.perm_cons_erase he
  · simp only [Tables.installFirst, if_neg hg]
    exact .refl _

lemma rangeLookup_installFirst {f : Fin 12} {e : RangeEntry (BitVec 6)} {ns : List ℕ}
    (htable : t.feat f = featEntries f ns) (he : e ∈ t.feat f) {x : ℕ} (hhit : e.hits x = true) :
    rangeLookup ((t.installFirst f e).feat f) x = some e.params := by
  have hprio : ∀ e' ∈ e :: (t.feat f).erase e, e'.priority = f.val + 1 := by
    intro e' he'
    have hmem := (List.perm_cons_erase he).mem_iff.2 he'
    rw [htable] at hmem
    obtain ⟨i, -, rfl⟩ := List.mem_map.1 hmem
    rfl
  have hfeat : (t.installFirst f e).feat f = e :: (t.feat f).erase e := if_pos rfl
  rw [hfeat, rangeLookup, Table.winner_eq_find? hprio, List.find?_cons_of_pos hhit,
    Option.map_some]

/-- A threshold, truncated, lies in the cell above it too. -/
lemma hits_upper (h : tree.InRange) {f : Fin 12} {thr : ℚ} (hthr : thr ∈ tree.thresholds f) :
    (featEntry f (tree.cuts f) (tree.pos f thr + 1)).hits ⌊thr⌋₊ = true := by
  have hcut : tree.cut f (tree.pos f thr) ≤ tree.cut f (tree.pos f thr + 1) :=
    cut_mono h (by omega) (pos_lt_top hthr)
  rw [cut_pos hthr] at hcut
  refine (hits_featEntry _).trans (decide_eq_true ⟨?_, hcut⟩)
  rw [Nat.add_sub_cancel, cut_pos hthr]

/-- With a feature on a threshold, an order that puts the cell above it first finds another
index. -/
lemma exists_perm_featIndexes_ne (h : tree.InRange) (ht : Installed tree t)
    {ft : Direction → Features} (hon : OnThreshold tree (featKey ft)) :
    ∃ t', t.Perm t' ∧ featIndexes t' ft ≠ featIndexes t ft := by
  obtain ⟨f, thr, hthr, hx⟩ := hon
  obtain ⟨hpos, hlt⟩ := h f thr hthr
  have htable : t.feat f = featEntries f (tree.cuts f) := by
    rw [ht.feat, if_neg (List.ne_nil_of_mem hthr)]
  have hle : (featKey ft f : ℚ) ≤ thr := by
    rw [hx]
    exact Nat.floor_le hpos.le
  have hmax : featKey ft f ≤ ftsMax f := by exact_mod_cast hle.trans hlt.le
  -- As installed, the switch finds the cell below the threshold or an earlier one.
  obtain ⟨j, hlookup, -, -, hj⟩ := featEntries_lookup h hmax
  have hjpos : j ≤ tree.pos f thr := (hj thr hthr).1 hle
  have htop := pos_lt_top hthr
  have he : featEntry f (tree.cuts f) (tree.pos f thr + 1) ∈ t.feat f := by
    rw [htable, featEntries_cuts]
    exact List.mem_map.2 ⟨_, List.mem_range'_1.2 ⟨by omega, by omega⟩, rfl⟩
  refine ⟨_, perm_installFirst he, fun heq => ?_⟩
  have hf := congrFun heq f
  rw [featIndexes, featIndexes, hx, rangeLookup_installFirst htable he (hits_upper h hthr), ← hx,
    htable, hlookup] at hf
  have hbits := congrArg BitVec.toNat hf
  have hbound := top_le ht.count f
  simp only [Option.getD_some, featEntry, BitVec.toNat_ofNat] at hbits
  omega

lemma actionFt_of_mem_reports {cfg : Config} {regs : Registers} {ps : List Packet} {r : Report}
    (hr : r ∈ reports (trace (switchStep cfg) regs ps)) :
    r.actionFt = featIndexes cfg.tables r.features := by
  obtain ⟨⟨p, out⟩, hx, rfl⟩ := List.mem_filterMap.1 hr
  obtain ⟨pre, post, -, hout⟩ := (mem_trace_iff _).1 hx
  have hreport : (process cfg (runState (switchStep cfg) regs pre) p).report = some r := hout
  by_cases hp : p.IsUdp
  · obtain ⟨-, rfl⟩ := report_eq_windowReport hp hreport
    rfl
  · rw [(process_of_not_isUdp cfg _ hp).2] at hreport
    exact absurd hreport (by simp)

/-- **When the order of the rules matters.**  A started switch reports the same in a run for every
order in which its entries could have been installed, if and only if no feature it reports is a
truncated threshold. -/
theorem reports_perm_iff (h : tree.InRange) (ht : Started tree t)
    (hash : BitVec 32 → BitVec 32 → Fin 1024) (regs : Registers) (ps : List Packet) :
    (∀ t', t.Perm t' →
        trace (switchStep ⟨hash, t'⟩) regs ps = trace (switchStep ⟨hash, t⟩) regs ps) ↔
      ∀ r ∈ reports (trace (switchStep ⟨hash, t⟩) regs ps),
        ¬ OnThreshold tree (featKey r.features) := by
  have hinstalled := ht.installed h
  constructor
  · intro hall r hr hon
    obtain ⟨t', hperm, hne⟩ := exists_perm_featIndexes_ne h hinstalled hon
    have hr' : r ∈ reports (trace (switchStep ⟨hash, t'⟩) regs ps) := by
      rw [hall t' hperm]
      exact hr
    exact hne ((actionFt_of_mem_reports hr').symm.trans (actionFt_of_mem_reports hr))
  · intro hoff t' hperm
    exact trace_perm hinstalled hperm h ps (fun _ => rfl) hoff

/-- A tree that compares the number of packets with 20, and a run that reports one packet. -/
theorem reports_perm_iff_one_test :
    ∃ t, Started (oneTestTree 5) t ∧
      let tr := fun t => trace (switchStep ⟨fun _ _ => 0, t⟩) Registers.zero
        [download 1000, download 40000]
      ∀ t', t.Perm t' → tr t' = tr t := by
  have hrange : (oneTestTree 5).InRange := by
    intro f thr hthr
    obtain ⟨rfl, rfl⟩ := thresholds_oneTestTree hthr
    norm_num [ftsMax]
  obtain ⟨t, ht⟩ := exists_started hrange (by decide)
  refine ⟨t, ht, (reports_perm_iff hrange ht _ _ _).2 ?_⟩
  rintro r hr ⟨f, thr, hthr, hx⟩
  obtain ⟨rfl, rfl⟩ := thresholds_oneTestTree hthr
  obtain ⟨⟨p, out⟩, hmem, rfl⟩ := List.mem_filterMap.1 hr
  obtain ⟨pre, post, heq, hout⟩ := (mem_trace_iff _).1 hmem
  have hudp : ∀ q ∈ [download 1000, download 40000], q.IsUdp := by decide
  have hpre : ∀ q ∈ pre, q ∈ [download 1000, download 40000] :=
    fun q hq => heq ▸ List.mem_append_left _ hq
  have hmono : pre.Pairwise fun p q => p.time ≤ q.time := by
    refine List.Pairwise.sublist (List.sublist_append_left pre (p :: post)) ?_
    rw [← heq]
    decide
  have hpos : ∀ q ∈ [download 1000, download 40000], q.time ≠ 0 := by decide
  obtain ⟨-, rfl⟩ := report_eq_windowReport (hudp p (heq ▸ by simp)) hout
  -- No window has more than the two packets of the run.
  have hlen : pre.length ≤ 2 := by
    have hall := congrArg List.length heq
    simp only [List.length_cons, List.length_nil, List.length_append] at hall
    omega
  let cfg : Config := ⟨fun _ _ => 0, t⟩
  let i := flowIndex cfg p
  have hle := length_openIn_le cfg i .DW pre
  have hnb := (half_switchRun_fields cfg i .DW (fun q hq => hudp q (hpre q hq))
    (fun q hq => hpos q (hpre q hq)) hmono).1
  have hcount : (((switchRun cfg pre).cell i).half .DW).nbelem.toNat = ⌊(20 : ℚ)⌋₊ := by
    rw [← (nb_windowFeatures t _ .DW).1]
    exact hx
  have hfloor : ⌊(20 : ℚ)⌋₊ = 20 := by norm_num
  rw [hnb, BitVec.toNat_ofNat, hfloor] at hcount
  omega

end FlowClassifier
