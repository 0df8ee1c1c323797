import Mathlib.Algebra.Order.Ring.Abs
import FlowClassifier.Properties.Domain

/-!
# The inter-arrival arithmetic never wraps

A packet that joins a window is measured against the mean inter-arrival time of the window before.
Its inter-arrival time and that mean are at most the length of a window, 33000, and their squared
difference is added to a register of 48 bits, however many packets the window has.

The register fits because every addition takes time: the accumulated deviation is at most `33000²`
for each microsecond between the start of the window and the last packet of the direction
(`IatBounded`).  A packet that adds to it arrives at least one microsecond after that one.
-/

namespace FlowClassifier

/-- The inter-arrival time a packet at `t` has in a direction, zero if it is the first one. -/
def Half.iat (h : Half) (t : BitVec 48) : BitVec 48 := if h.flowTst ≠ 0 then t - h.flowTst else 0

/-- What the times and deviations of a cell keep to, after packets up to the time `now`. -/
structure IatBounded (c : Cell) (now : ℕ) : Prop where
  start : c.flowFrstTime.toNat ≤ now
  mean : ∀ d, (c.half d).lstMuIAT.toNat ≤ 33000
  last : ∀ d, (c.half d).flowTst ≠ 0 →
    c.flowFrstTime.toNat ≤ (c.half d).flowTst.toNat ∧ (c.half d).flowTst.toNat ≤ now
  deviation : ∀ d, (c.half d).dltIAT.toNat ≤
    33000 ^ 2 * ((c.half d).flowTst.toNat - c.flowFrstTime.toNat)

/-! ## The mean of a window -/

lemma meanIAT_windowFeatures_le {t : Tables} (ht : DivisionTables t 4095) (h : Direction → Half)
    (d : Direction) : (windowFeatures t h d).meanIAT.toNat ≤ 33000 := by
  have hft : windowFeatures t h d = halfFeatures (divideHalf t d .zero (h d)) (h d) := by
    cases d with
    | DW => rfl
    | UP => exact windowFeatures_up_of_divisionTables ht h
  rw [hft]
  by_cases hn : (h d).nbelem = 0
  · have hpos : ¬ (h d).nbelem > 0 := by simp [hn]
    rw [halfFeatures, if_neg hpos]
    exact Nat.zero_le _
  · obtain ⟨hone, p, hlook, -, htime⟩ := exists_divides ht d hn
    have hpos : (h d).nbelem > 0 := hone
    rw [halfFeatures, if_pos hpos, divideHalf, if_pos hpos, hlook]
    exact le_trans (htime winSze).le_div (Nat.div_le_self _ _)

/-! ## A packet that joins a window -/

section Joins

variable {c : Cell} {now : ℕ} {t : BitVec 48}

lemma IatBounded.elapsed (hc : IatBounded c now) (hnow : now ≤ t.toNat) (hw : ¬ c.WindowOver t)
    (hopen : c.flowFrstTime ≠ 0) : t.toNat ≤ c.flowFrstTime.toNat + 33000 := by
  have hle : c.flowFrstTime ≤ t := le_trans hc.start hnow
  have hsub : (t - c.flowFrstTime).toNat = t.toNat - c.flowFrstTime.toNat :=
    BitVec.toNat_sub_of_le hle
  have hwin : winSze.toNat = 33000 := rfl
  by_contra hgt
  refine hw ⟨hopen, ?_⟩
  rw [gt_iff_lt, BitVec.lt_def, hsub, hwin]
  omega

/-- The inter-arrival time fits between the last packet of the direction and now. -/
lemma IatBounded.iat_add_le (hc : IatBounded c now) (hnow : now ≤ t.toNat) (d : Direction) :
    ((c.half d).iat t).toNat + ((c.half d).flowTst.toNat - c.flowFrstTime.toNat) ≤
      t.toNat - c.flowFrstTime.toNat := by
  unfold Half.iat
  by_cases hlast : (c.half d).flowTst = 0
  · simp [hlast]
  · obtain ⟨hfirst, hle⟩ := hc.last d hlast
    have hsub : (t - (c.half d).flowTst).toNat = t.toNat - (c.half d).flowTst.toNat :=
      BitVec.toNat_sub_of_le (le_trans hle hnow)
    rw [if_pos hlast, hsub]
    omega

lemma sq_sub_le {a b : ℕ} (ha : a ≤ 33000) (hb : b ≤ 33000) :
    ((a : ℤ) - b) ^ 2 ≤ 33000 ^ 2 := by
  refine sq_le_sq' ?_ ?_ <;> omega

/-- **The three bounds** on the operands of the deviation, and on its integer value. -/
lemma IatBounded.operands (hc : IatBounded c now) (hnow : now ≤ t.toNat) (hw : ¬ c.WindowOver t)
    (hopen : c.flowFrstTime ≠ 0) (d : Direction) :
    ((c.half d).iat t).toNat ≤ 33000 ∧ (c.half d).lstMuIAT.toNat ≤ 33000 ∧
      ((c.half d).dltIAT.toNat : ℤ) +
        ((((c.half d).iat t).toNat : ℤ) - (c.half d).lstMuIAT.toNat) ^ 2 < 2 ^ 48 := by
  have helapsed := hc.elapsed hnow hw hopen
  have hiat := hc.iat_add_le hnow d
  have hmean := hc.mean d
  have hiat' : ((c.half d).iat t).toNat ≤ 33000 := by omega
  refine ⟨hiat', hmean, ?_⟩
  have hsq := sq_sub_le hiat' hmean
  have hold : (c.half d).dltIAT.toNat ≤ 33000 ^ 2 * 33000 :=
    le_trans (hc.deviation d) (Nat.mul_le_mul_left _ (by omega))
  omega

lemma IatBounded.toNat_update (hc : IatBounded c now) (hnow : now ≤ t.toNat)
    (hw : ¬ c.WindowOver t) (hopen : c.flowFrstTime ≠ 0) (d : Direction) (siz : BitVec 32) :
    (((c.half d).update siz t).dltIAT.toNat : ℤ) =
      if (c.half d).lstMuIAT ≠ 0 ∧ (c.half d).iat t ≠ 0 then
        ((c.half d).dltIAT.toNat : ℤ) +
          ((((c.half d).iat t).toNat : ℤ) - (c.half d).lstMuIAT.toNat) ^ 2
      else 0 := by
  obtain ⟨-, -, hlt⟩ := hc.operands hnow hw hopen d
  generalize c.half d = h at hlt ⊢
  have hupdate : (h.update siz t).dltIAT =
      if h.lstMuIAT ≠ 0 ∧ h.iat t ≠ 0 then
        h.dltIAT + (h.iat t - h.lstMuIAT) * (h.iat t - h.lstMuIAT)
      else 0 := rfl
  rw [hupdate]
  split
  · have hsum : h.dltIAT + (h.iat t - h.lstMuIAT) * (h.iat t - h.lstMuIAT) =
        BitVec.ofInt 48
          ((h.dltIAT.toNat : ℤ) + (((h.iat t).toNat : ℤ) - h.lstMuIAT.toNat) ^ 2) := by
      rw [BitVec.ofInt_add, ← sq_sub_eq_ofInt, BitVec.ofInt_natCast, BitVec.ofNat_toNat,
        BitVec.setWidth_eq]
    rw [hsum]
    exact (toNat_ofInt_eq_iff (by positivity)).2 hlt
  · rfl

/-- A joining packet keeps the deviation below `33000²` for each microsecond. -/
lemma IatBounded.update (hc : IatBounded c now) (hnow : now ≤ t.toNat) (hw : ¬ c.WindowOver t)
    (hopen : c.flowFrstTime ≠ 0) (d : Direction) (siz : BitVec 32) :
    IatBounded (c.update d siz t) t.toNat := by
  have hfrst : (c.update d siz t).flowFrstTime = c.flowFrstTime := rfl
  refine ⟨le_trans hc.start hnow, fun e => ?_, fun e => ?_, fun e => ?_⟩
  · rw [half_update]
    split <;> exact hc.mean e
  · rw [half_update, hfrst]
    split
    · exact fun _ => ⟨le_trans hc.start hnow, le_rfl⟩
    · intro hlast
      obtain ⟨hfirst, hle⟩ := hc.last e hlast
      exact ⟨hfirst, le_trans hle hnow⟩
  · rw [half_update, hfrst]
    split
    · have hnew := hc.toNat_update hnow hw hopen e siz
      have hiat := hc.iat_add_le hnow e
      have hdev := hc.deviation e
      obtain ⟨hiat', hmean, -⟩ := hc.operands hnow hw hopen e
      have hsq := sq_sub_le hiat' hmean
      have htst : ((c.half e).update siz t).flowTst = t := rfl
      rw [htst]
      split at hnew
      · rename_i hne
        -- the packet arrives after the last one of its direction
        have hone : 1 ≤ ((c.half e).iat t).toNat := by
          by_contra hzero
          exact hne.2 (BitVec.eq_of_toNat_eq (by simpa using hzero))
        have hstep : 33000 ^ 2 * ((c.half e).flowTst.toNat - c.flowFrstTime.toNat) + 33000 ^ 2 ≤
            33000 ^ 2 * (t.toNat - c.flowFrstTime.toNat) := by
          rw [← Nat.mul_succ]
          exact Nat.mul_le_mul_left _ (by omega)
        omega
      · omega
    · exact hc.deviation e

end Joins

/-! ## Runs -/

variable {cfg : Config} {ps : List Packet} {p : Packet}

lemma iatBounded_init {c : Cell} (hmean : ∀ d, (c.half d).lstMuIAT.toNat ≤ 33000) (d : Direction)
    (siz : BitVec 32) (t : BitVec 48) : IatBounded (c.init d siz t) t.toNat := by
  have hfrst : (c.init d siz t).flowFrstTime = t := rfl
  refine ⟨le_rfl, fun e => ?_, fun e => ?_, fun e => ?_⟩
  · rw [half_init]
    split <;> exact hmean e
  · rw [half_init, hfrst]
    split
    · exact fun _ => ⟨le_rfl, le_rfl⟩
    · exact fun hlast => absurd rfl hlast
  · rw [half_init]
    split
    · simp [Half.update, Half.clear]
    · simp [Half.clear]

/-- **One packet.** -/
lemma IatBounded.cellStep (hdiv : DivisionTables cfg.tables 4095) {c : Cell} {now : ℕ}
    (hc : IatBounded c now) (hnow : now ≤ p.time.toNat) :
    IatBounded (cellStep cfg c p).1 p.time.toNat := by
  unfold FlowClassifier.cellStep
  by_cases hw : c.WindowOver p.time
  · simp only [if_pos hw]
    exact iatBounded_init (fun d => meanIAT_windowFeatures_le hdiv c.half d) _ _ _
  · by_cases hi : c.swapSpace p.key ≠ 0 ∨ c.flowFrstTime = 0
    · simp only [if_neg hw, if_pos hi]
      exact iatBounded_init hc.mean _ _ _
    · simp only [if_neg hw, if_neg hi]
      exact hc.update hnow hw (not_or.1 hi).2 _ _

/-- **Every cell of a run** keeps to the bounds. -/
lemma iatBounded_cellRun (hdiv : DivisionTables cfg.tables 4095)
    (hmono : ps.Pairwise fun p q => p.time ≤ q.time) :
    IatBounded (cellRun cfg ps) (lastTime ps).toNat := by
  induction ps using List.reverseRecOn with
  | nil =>
      refine ⟨le_rfl, fun d => Nat.zero_le _, fun d hlast => absurd rfl hlast, fun d => ?_⟩
      exact Nat.zero_le _
  | append_singleton ps p ih =>
      obtain ⟨hmono', -, hlast⟩ := List.pairwise_append.1 hmono
      have hnow : (lastTime ps).toNat ≤ p.time.toNat :=
        lastTime_le fun q hq => hlast q hq p (List.mem_singleton_self p)
      have htime : lastTime (ps ++ [p]) = p.time := by simp [lastTime]
      rw [htime, cellRun_concat]
      by_cases hp : p.IsUdp
      · rw [packetStep_of_isUdp cfg _ hp]
        exact (ih hmono').cellStep hdiv hnow
      · rw [packetStep_of_not_isUdp cfg _ hp]
        obtain ⟨hstart, hmean, hlast, hdev⟩ := ih hmono'
        refine ⟨le_trans hstart hnow, hmean, fun d hd => ?_, hdev⟩
        exact ⟨(hlast d hd).1, le_trans (hlast d hd).2 hnow⟩

/-- The registers that account a packet: those of its direction at its index. -/
def ownHalf (cfg : Config) (regs : Registers) (p : Packet) : Half :=
  (regs.cell (flowIndex cfg p)).half (flowDir cfg.tables p)

/-- The arithmetic of `updateDOWN` or `updateUP` on one packet, on integers.  The operands are the
time since the last packet of the direction, the stored mean and the deviation register.  They are
at most the length of a window, the register and the square fit 48 bits together, and their sum is
written back, or zero where the program says so. -/
structure IatExact (cfg : Config) (regs : Registers) (p : Packet) : Prop where
  elapsed : ((process cfg regs p).interArrivalTime.toNat : ℤ) =
    if (ownHalf cfg regs p).flowTst ≠ 0 then
      (p.time.toNat : ℤ) - (ownHalf cfg regs p).flowTst.toNat
    else 0
  stored : (process cfg regs p).trackMeta.mLstMuIat = (ownHalf cfg regs p).lstMuIAT ∧
    (process cfg regs p).trackMeta.mSumIatDltInTable = (ownHalf cfg regs p).dltIAT
  iat : (process cfg regs p).interArrivalTime.toNat ≤ 33000
  mean : (process cfg regs p).trackMeta.mLstMuIat.toNat ≤ 33000
  fits : ((process cfg regs p).trackMeta.mSumIatDltInTable.toNat : ℤ) +
    (((process cfg regs p).interArrivalTime.toNat : ℤ) -
      (process cfg regs p).trackMeta.mLstMuIat.toNat) ^ 2 < 2 ^ 48
  value : ((process cfg regs p).sumIatDlt.toNat : ℤ) =
    if (process cfg regs p).trackMeta.mLstMuIat ≠ 0 ∧
        (process cfg regs p).interArrivalTime ≠ 0 then
      ((process cfg regs p).trackMeta.mSumIatDltInTable.toNat : ℤ) +
        (((process cfg regs p).interArrivalTime.toNat : ℤ) -
          (process cfg regs p).trackMeta.mLstMuIat.toNat) ^ 2
    else 0
  written : (ownHalf cfg (process cfg regs p).regs p).dltIAT = (process cfg regs p).sumIatDlt

lemma IatBounded.toNat_iat {c : Cell} {now : ℕ} {t : BitVec 48} (hc : IatBounded c now)
    (hnow : now ≤ t.toNat) (d : Direction) :
    (((c.half d).iat t).toNat : ℤ) =
      if (c.half d).flowTst ≠ 0 then (t.toNat : ℤ) - (c.half d).flowTst.toNat else 0 := by
  unfold Half.iat
  by_cases hlast : (c.half d).flowTst = 0
  · simp [hlast]
  · obtain ⟨-, hle⟩ := hc.last d hlast
    have hle' : (c.half d).flowTst.toNat ≤ t.toNat := le_trans hle hnow
    rw [if_pos hlast, if_pos hlast, BitVec.toNat_sub_of_le hle', Nat.cast_sub hle']

lemma ownHalf_process_of_joins (cfg : Config) (regs : Registers) {p : Packet} (hp : p.IsUdp)
    (hjoins : ¬ (regs.cell (flowIndex cfg p)).Opens p) :
    ownHalf cfg (process cfg regs p).regs p = (ownHalf cfg regs p).update p.siz p.time := by
  obtain ⟨-, -, -, hcell⟩ := process_spec cfg regs hp
  rw [ownHalf, hcell, if_pos rfl, cellStep_of_not_opens cfg hjoins, half_update, if_pos rfl,
    ownHalf]

/-- **The inter-arrival arithmetic never wraps.**  At every packet of a run that joins a window, the
48-bit subtraction, square and addition are those of the integers. -/
theorem iatExact_of_joins (cfg : Config) (ps : List Packet) (hdiv : DivideFromCsv cfg.tables)
    (hudp : ∀ p ∈ ps, p.IsUdp) (hmono : ps.Pairwise fun p q => p.time ≤ q.time) :
    ∀ pre p post, ps = pre ++ p :: post →
      ¬ ((switchRun cfg pre).cell (flowIndex cfg p)).Opens p →
        IatExact cfg (switchRun cfg pre) p := by
  intro pre p post heq hjoins
  rw [heq] at hmono hudp
  have hp : p.IsUdp := hudp p (by simp)
  obtain ⟨hpre, -, hlast⟩ := List.pairwise_append.1 hmono
  have hbounded : IatBounded ((switchRun cfg pre).cell (flowIndex cfg p))
      (lastTime (packetsAt cfg (flowIndex cfg p) pre)).toNat := by
    rw [cell_switchRun]
    exact iatBounded_cellRun (divisionTables_of_divideFromCsv hdiv) (hpre.filter _)
  have hnow : (lastTime (packetsAt cfg (flowIndex cfg p) pre)).toNat ≤ p.time.toNat :=
    lastTime_le fun q hq => hlast q (mem_packetsAt.1 hq).1 p (List.mem_cons_self ..)
  have hwritten := ownHalf_process_of_joins cfg (switchRun cfg pre) hp hjoins
  unfold Cell.Opens at hjoins
  obtain ⟨hw, hi⟩ := not_or.1 hjoins
  have hopen := (not_or.1 hi).2
  obtain ⟨hiat, hmu, hold, hnew⟩ := process_of_joins cfg (switchRun cfg pre) hp hw hi
  obtain ⟨hiat', hmean, hfits⟩ := hbounded.operands hnow hw hopen (flowDir cfg.tables p)
  have helapsed := hbounded.toNat_iat hnow (flowDir cfg.tables p)
  have hvalue := hbounded.toNat_update hnow hw hopen (flowDir cfg.tables p) p.siz
  have hiat'' : (process cfg (switchRun cfg pre) p).interArrivalTime =
      (((switchRun cfg pre).cell (flowIndex cfg p)).half (flowDir cfg.tables p)).iat p.time := hiat
  constructor
  · rw [hiat'']
    exact helapsed
  · exact ⟨hmu, hold⟩
  · rw [hiat'']
    exact hiat'
  · rw [hmu]
    exact hmean
  · rw [hold, hiat'', hmu]
    exact hfits
  · rw [hnew, hold, hiat'', hmu]
    exact hvalue
  · rw [hwritten, hnew, ownHalf]

/-- The second packet of an upload's second window, whose first one had a single packet and so a
mean of 33000. -/
theorem iatExact_of_joins_upload :
    ∃ D, let cfg := lanConfig 0 (twiceTestedTree 5 0) D
      let regs := switchRun cfg [upload 1000, upload 40000]
      DivideFromCsv cfg.tables ∧ (ownHalf cfg regs (upload 41000)).lstMuIAT = 33000 ∧
        IatExact cfg regs (upload 41000) := by
  obtain ⟨D, hD⟩ := exists_divideFromCsv
  refine ⟨D, ?_⟩
  intro cfg regs
  have hdiv : DivideFromCsv cfg.tables := hD _ rfl
  have hone : cellRun cfg [upload 1000] = Cell.zero.init .UP 1000 1000 := by
    rw [cellRun_singleton (isUdp_upload 1000)]
    rfl
  let c : Cell := Cell.zero.init .UP 1000 1000
  have htwo : cellRun cfg ([upload 1000] ++ [upload 40000]) =
      (c.close cfg.tables (flowIndex cfg (upload 40000))).init .UP 1000 40000 := by
    have hover : c.WindowOver (upload 40000).time := by decide
    rw [cellRun_concat, hone, packetStep_of_isUdp _ _ (isUdp_upload 40000),
      cellStep_of_flowTracker cfg (c := c) rfl, if_pos hover]
    rfl
  have hcell : regs.cell (flowIndex cfg (upload 41000)) =
      (c.close cfg.tables (flowIndex cfg (upload 40000))).init .UP 1000 40000 := by
    rw [← htwo, flowIndex_lanConfig]
    exact cell_lanConfig _
  refine ⟨hdiv, ?_, iatExact_of_joins cfg [upload 1000, upload 40000, upload 41000] hdiv ?_
    (by decide) [upload 1000, upload 40000] (upload 41000) [] rfl ?_⟩
  · have ht := divisionTables_of_divideFromCsv hdiv
    obtain ⟨-, q, hlook, -, htime⟩ := exists_divides ht .UP (n := 1) (by decide)
    have hexact := (htime winSze).exact ⟨0, rfl⟩
    have hmean : (windowFeatures cfg.tables c.half .UP).meanIAT = q.apply winSze := by
      have hnb : (c.half .UP).nbelem = 1 := rfl
      have hpos : (c.half .UP).nbelem > 0 := by decide
      rw [windowFeatures_up_of_divisionTables ht, halfFeatures, if_pos hpos, divideHalf,
        if_pos hpos, hnb, hlook]
      rfl
    have hhalf : (ownHalf cfg regs (upload 41000)).lstMuIAT =
        (windowFeatures cfg.tables c.half .UP).meanIAT := by
      rw [ownHalf, hcell]
      rfl
    rw [hhalf, hmean]
    exact BitVec.eq_of_toNat_eq hexact
  · intro p hp
    simp only [List.mem_cons, List.not_mem_nil, or_false] at hp
    rcases hp with rfl | rfl | rfl <;> exact isUdp_upload _
  · rw [hcell]
    rintro (hover | hswap | hfirst)
    · have hwithin : ¬ ((upload 41000).time - 40000 > winSze) := by decide
      exact hwithin hover.2
    · exact hswap (swapSpace_of_flowTracker rfl _)
    · exact absurd hfirst (show ¬ (40000 : BitVec 48) = 0 by decide)

end FlowClassifier
