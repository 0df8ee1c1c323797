import FlowClassifier.Switch.Runs

/-!
# The debug writes of a run

The end-of-window branch writes what it computes to the four debug arrays, fourteen values one
after the other, so that they show up in the switch's log.  The writes are scattered over the
branch: each direction's six before its last means, the index before the tables, the verdict after
them.  `log_process` collects them: one execution writes the fourteen values of the report it
emits, read off that report, and nothing when it emits none.  `runLog_eq` is the same for a run
from any registers.
-/

namespace FlowClassifier

open Mealy

/-- The index a debug write goes to. -/
def DebugWrite.index : DebugWrite → Fin 1024
  | .bits12 i _ | .bits32 i _ | .bits48 i _ | .bit1 i _ => i

/-- The number a debug write stores. -/
def DebugWrite.value : DebugWrite → ℕ
  | .bits12 _ v => v.toNat
  | .bits32 _ v => v.toNat
  | .bits48 _ v => v.toNat
  | .bit1 _ v => v.toNat

/-- The debug writes of one direction's features, at a register index. -/
def Features.writes (i : Fin 1024) (ft : Features) : List DebugWrite :=
  [.bits32 i ft.meanSZ, .bits32 i ft.stdSZ, .bits48 i ft.meanIAT, .bits48 i ft.stdIAT,
    .bits32 i ft.sum, .bits12 i ft.nb]

/-- The debug writes of a window's end. -/
def Report.writes (r : Report) : List DebugWrite :=
  (r.features .DW).writes r.index ++ (r.features .UP).writes r.index ++
    [.bits32 r.index (BitVec.ofNat 32 r.index), .bit1 r.index r.isCG]

/-- The debug writes of a run, in order. -/
def runLog (cfg : Config) : Registers → List Packet → List DebugWrite
  | _, [] => []
  | regs, p :: ps => (process cfg regs p).log ++ runLog cfg (process cfg regs p).regs ps

/-! ## One execution -/

section Execution

variable (t : Tables) (d : Direction) (s : State)

/-- What an execution has logged is what its report says. -/
def State.LogsReport (s : State) : Prop := s.log = s.report.toList.flatMap Report.writes

lemma log_computeFeatures : (computeFeatures t d s).log = s.log := by
  rw [computeFeatures_eq]

lemma mIndex_computeFeatures : (computeFeatures t d s).trackMeta.mIndex = s.trackMeta.mIndex := by
  rw [computeFeatures_eq]

/-- The block of one direction leaves the features of the other alone. -/
lemma features_computeFeatures {e : Direction} (he : e ≠ d) :
    (computeFeatures t d s).trackMeta.features e = s.trackMeta.features e := by
  rw [computeFeatures_eq]
  exact if_neg he

lemma log_writeFeatures :
    (writeFeatures d s).log =
      s.log ++ (s.trackMeta.features d).writes s.trackMeta.mIndex := by
  simp [writeFeatures, write12Bits, write32Bits, write48Bits, Features.writes]

lemma log_writeLastMeans : (writeLastMeans d s).log = s.log := rfl

/-- The tables write the indexes and the verdict only. -/
lemma classify_frame :
    (classify t s).log = s.log ∧ (classify t s).trackMeta.mIndex = s.trackMeta.mIndex ∧
      (classify t s).trackMeta.features = s.trackMeta.features := by
  rw [classify_eq_actRules]
  unfold actRules
  split
  · exact ⟨rfl, rfl, rfl⟩
  · exact ⟨rfl, rfl, rfl⟩

/-- The end of a window logs what it leaves in the scratch record. -/
lemma log_endWindow :
    (endWindow t s).log = s.log ++
      Report.writes ⟨(endWindow t s).trackMeta.mIndex, (endWindow t s).trackMeta.features,
        (endWindow t s).trackMeta.actionFt, (endWindow t s).trackMeta.isCG⟩ := by
  let u := writeLastMeans .DW (writeFeatures .DW (computeFeatures t .DW s))
  let v := writeLastMeans .UP (writeFeatures .UP (computeFeatures t .UP u))
  have hu : u.log = s.log ++ (u.trackMeta.features .DW).writes s.trackMeta.mIndex := by
    simp only [u, log_writeLastMeans, log_writeFeatures, log_computeFeatures,
      mIndex_computeFeatures, trackMeta_writeLastMeans, trackMeta_writeFeatures]
  have hui : u.trackMeta.mIndex = s.trackMeta.mIndex := by
    simp only [u, trackMeta_writeLastMeans, trackMeta_writeFeatures, mIndex_computeFeatures]
  have hv : v.log = u.log ++ (v.trackMeta.features .UP).writes s.trackMeta.mIndex := by
    simp only [v, log_writeLastMeans, log_writeFeatures, log_computeFeatures,
      mIndex_computeFeatures, trackMeta_writeLastMeans, trackMeta_writeFeatures, hui]
  have hvi : v.trackMeta.mIndex = s.trackMeta.mIndex := by
    simp only [v, trackMeta_writeLastMeans, trackMeta_writeFeatures, mIndex_computeFeatures, hui]
  have hvdw : v.trackMeta.features .DW = u.trackMeta.features .DW := by
    simp only [v, trackMeta_writeLastMeans, trackMeta_writeFeatures]
    exact features_computeFeatures t .UP u (by decide)
  -- The index is logged before the tables, the verdict after them.
  let w := classify t (write32Bits (BitVec.ofNat 32 v.trackMeta.mIndex) v)
  have heq : endWindow t s = write1Bit w.trackMeta.isCG w := rfl
  obtain ⟨hlog, hidx, hft⟩ := classify_frame t (write32Bits (BitVec.ofNat 32 v.trackMeta.mIndex) v)
  have hwlog : w.log = v.log ++ [.bits32 v.trackMeta.mIndex (BitVec.ofNat 32 v.trackMeta.mIndex)] :=
    hlog
  have hwi : w.trackMeta.mIndex = s.trackMeta.mIndex := hidx.trans hvi
  have hwft : w.trackMeta.features = v.trackMeta.features := hft
  rw [heq]
  simp only [write1Bit, Report.writes, hwlog, hwi, hwft, hv, hvi, hvdw, hu, List.append_assoc,
    List.cons_append, List.nil_append]

lemma mEndWin_endWindow : (endWindow t s).trackMeta.mEndWin = s.trackMeta.mEndWin := by
  have hclassify : ∀ u : State, (classify t u).trackMeta.mEndWin = u.trackMeta.mEndWin := by
    intro u
    rw [classify_eq_actRules]
    unfold actRules
    split <;> rfl
  have hcompute : ∀ d u, (computeFeatures t d u).trackMeta.mEndWin = u.trackMeta.mEndWin := by
    intro d u
    rw [computeFeatures_eq]
  simp only [endWindow, write1Bit, write32Bits, hclassify, hcompute, trackMeta_writeLastMeans,
    trackMeta_writeFeatures]

/-- The end-of-window branch, entered with nothing logged. -/
lemma logsReport_endWindow (hlog : s.log = []) (hwin : s.trackMeta.mEndWin = 1) :
    (endWindow t s).LogsReport := by
  have hrep : (endWindow t s).trackMeta.mEndWin = 1 := (mEndWin_endWindow t s).trans hwin
  rw [State.LogsReport, State.report, if_pos hrep, log_endWindow, hlog]
  simp

/-- Outside it nothing is reported. -/
lemma logsReport_of_mEndWin {s : State} (hlog : s.log = []) (hwin : s.trackMeta.mEndWin = 0) :
    s.LogsReport := by
  have hbit : ¬ s.trackMeta.mEndWin = 1 := by simp [hwin]
  rw [State.LogsReport, State.report, if_neg hbit, hlog]
  rfl

lemma log_ipv4Forwarding : (ipv4Forwarding t s).log = s.log := by
  unfold ipv4Forwarding
  split
  · split
    · rfl
    · unfold ipv4Lpm
      split <;> rfl
  · rfl

/-- The actions that open a window log nothing and leave the report alone. -/
lemma State.LogsReport.init {d : Direction} {s : State} (h : s.LogsReport) :
    (init d s).LogsReport := h

lemma State.LogsReport.update {d : Direction} {s : State} (h : s.LogsReport) :
    (update d s).LogsReport := h

/-- The branch after the hash: the window's end, then a new window, or an update. -/
lemma logsReport_branch {s : State} (hlog : s.log = [])
    (hbit : s.trackMeta.mEndWin = 1 ∨ s.trackMeta.mEndWin = 0) :
    (if s.trackMeta.mEndWin = 1 ∨ s.trackMeta.mSwapSpace ≠ 0
        ∨ s.trackMeta.mFrstTimeInTable = 0 then
      let s := if s.trackMeta.mEndWin = 1 then endWindow t s else s
      if s.up then initUP s else initDOWN s
    else if s.up then updateUP s else updateDOWN s).LogsReport := by
  rcases hbit with hwin | hwin
  · have hend := logsReport_endWindow t s hlog hwin
    rw [if_pos (.inl hwin), if_pos hwin]
    dsimp only
    split
    · exact State.LogsReport.init hend
    · exact State.LogsReport.init hend
  · have hopen := logsReport_of_mEndWin hlog hwin
    have hne : ¬ s.trackMeta.mEndWin = 1 := by simp [hwin]
    rw [if_neg hne]
    dsimp only
    split
    · split
      · exact State.LogsReport.init hopen
      · exact State.LogsReport.init hopen
    · split
      · exact State.LogsReport.update hopen
      · exact State.LogsReport.update hopen

/-- The hash logs nothing, and its end-of-window bit is a bit. -/
lemma genHash_frame (cfg : Config) (a b : BitVec 32) :
    (genHash cfg a b s).log = s.log ∧
      ((genHash cfg a b s).trackMeta.mEndWin = 1 ∨ (genHash cfg a b s).trackMeta.mEndWin = 0) := by
  refine ⟨rfl, ?_⟩
  simp only [genHash]
  split
  · exact .inl rfl
  · exact .inr rfl

lemma log_direc : (direc t s).log = s.log := by
  unfold direc
  split
  · rfl
  · rfl

end Execution

variable (cfg : Config)

/-- **The debug writes of one execution** are those of its report. -/
theorem log_process (regs : Registers) (p : Packet) :
    (process cfg regs p).log = (process cfg regs p).report.toList.flatMap Report.writes := by
  show (process cfg regs p).LogsReport
  have hstart : (State.start regs p).log = [] := rfl
  unfold process ingress
  split
  · obtain ⟨-, hmeta, -⟩ := ipv4Forwarding_spec cfg.tables (State.start regs p)
    have hfwd : (ipv4Forwarding cfg.tables (State.start regs p)).log = [] :=
      (log_ipv4Forwarding cfg.tables (State.start regs p)).trans hstart
    generalize ipv4Forwarding cfg.tables (State.start regs p) = s at hmeta hfwd
    dsimp only
    split
    · have hdirec : (direc cfg.tables s).log = [] := (log_direc cfg.tables s).trans hfwd
      generalize direc cfg.tables s = s₁ at hdirec
      split
      · obtain ⟨hlog, hbit⟩ := genHash_frame s₁ cfg s₁.hdr.ipv4.srcAddr s₁.hdr.ipv4.dstAddr
        exact logsReport_branch cfg.tables (hlog.trans hdirec) hbit
      · obtain ⟨hlog, hbit⟩ := genHash_frame s₁ cfg s₁.hdr.ipv4.dstAddr s₁.hdr.ipv4.srcAddr
        exact logsReport_branch cfg.tables (hlog.trans hdirec) hbit
    · exact logsReport_of_mEndWin hfwd (by rw [hmeta]; rfl)
  · exact logsReport_of_mEndWin hstart rfl

/-! ## Runs -/

lemma reports_cons (x : Packet × Option Report) (tr : List (Packet × Option Report)) :
    reports (x :: tr) = x.2.toList ++ reports tr := by
  obtain ⟨p, out⟩ := x
  cases out <;> rfl

/-- **The debug writes of a run** are those of its reports, in order. -/
theorem runLog_eq (regs : Registers) (ps : List Packet) :
    runLog cfg regs ps =
      (reports (trace (switchStep cfg) regs ps)).flatMap Report.writes := by
  induction ps generalizing regs with
  | nil => rfl
  | cons p ps ih =>
      rw [runLog, ih, log_process, trace_cons, reports_cons, List.flatMap_append]
      rfl

end FlowClassifier
