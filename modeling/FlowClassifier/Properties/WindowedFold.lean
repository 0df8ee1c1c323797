import FlowClassifier.Framework.Windows
import FlowClassifier.Switch.Accumulators

/-!
# The registers are a windowed fold

What the registers of an index are for: the packets there are cut into windows of 33 ms, the
registers summarise the open window, and a closed window is reported once, when the next one opens.
`windowHalf` is that summary of the packets of one direction and `windowReports` the reports of a
list of windows, each window measured against the means the one before it reported.
`registers_refine_windows` says that every run computes exactly this: no packet is lost, counted
twice, put in a neighbouring window or in the other direction.

Only the order of the arrival times matters for it, and that none of them is zero, the value the
program keeps for "no packet yet".
-/

namespace FlowClassifier

open Mealy Windows

/-! ## The abstract windows -/

/-- A packet stays in the window of `o` up to 33 ms after it. -/
def sameWindow (o p : Packet) : Bool := decide (p.time.toNat - o.time.toNat ≤ 33000)

/-- The summary of one direction's packets in a window, given the features of that direction in the
window before.  The size of a packet is its total length less 28, in 16 bits. -/
def windowHalf (last : Features) (ps : List Packet) : Half where
  nbelem := BitVec.ofNat 12 ps.length
  sumSZE := BitVec.ofNat 32 (sizes ps)
  dltSZE := if last.meanSZ = 0 then 0 else BitVec.ofInt 32 (sqDev last.meanSZ (ps.map Packet.siz))
  lstMuSZE := last.meanSZ
  flowTst := lastTime ps
  dltIAT := iatDev last.meanIAT (iats (ps.map Packet.time))
  lstMuIAT := last.meanIAT

/-- The features of one direction in the last of some reports, zeros if there is none. -/
def lastFeatures (rs : List Report) (d : Direction) : Features :=
  (rs.getLast?.map fun r => r.features d).getD .zero

/-- The summary of a window after some reports, direction by direction. -/
def windowHalves (t : Tables) (rs : List Report) (w : List Packet) (d : Direction) : Half :=
  windowHalf (lastFeatures rs d) (w.filter fun p => flowDir t p = d)

/-- The reports of closed windows, in order. -/
def windowReports (t : Tables) (i : Fin 1024) (ws : List (List Packet)) : List Report :=
  ws.foldl (fun rs w => rs ++ [windowReport t i (windowHalves t rs w)]) []

lemma windowReports_concat (t : Tables) (i : Fin 1024) (ws : List (List Packet))
    (w : List Packet) :
    windowReports t i (ws ++ [w]) =
      windowReports t i ws ++ [windowReport t i (windowHalves t (windowReports t i ws) w)] := by
  simp [windowReports]

@[simp] lemma length_windowReports (t : Tables) (i : Fin 1024) (ws : List (List Packet)) :
    (windowReports t i ws).length = ws.length := by
  induction ws using List.reverseRecOn with
  | nil => rfl
  | append_singleton ws w ih => simp [windowReports_concat, ih]

/-- The reports of a trace, each with the packet that emitted it. -/
def closings (tr : List (Packet × Option Report)) : List (Packet × Report) :=
  tr.filterMap fun x => x.2.map (Prod.mk x.1)

lemma closings_concat (tr : List (Packet × Option Report)) (p : Packet) (o : Option Report) :
    closings (tr ++ [(p, o)]) = closings tr ++ (o.map (Prod.mk p)).toList := by
  cases o <;> simp [closings]

lemma map_snd_closings (tr : List (Packet × Option Report)) :
    (closings tr).map Prod.snd = reports tr := by
  unfold closings reports
  rw [List.map_filterMap]
  congr 1
  funext x
  cases x.2 <;> rfl

/-- The packets of a run that are accounted. -/
def accounted (ps : List Packet) : List Packet := ps.filter fun p => p.IsUdp

lemma mem_accounted {ps : List Packet} {p : Packet} : p ∈ accounted ps ↔ p ∈ ps ∧ p.IsUdp := by
  simp [accounted]

lemma run_accounted (cfg : Config) (regs : Registers) (ps : List Packet) :
    runState (switchStep cfg) regs (accounted ps) = runState (switchStep cfg) regs ps ∧
      closings (trace (switchStep cfg) regs (accounted ps)) =
        closings (trace (switchStep cfg) regs ps) := by
  refine filter_silent (fun p => decide p.IsUdp) (fun s p hp => ?_) regs ps
  obtain ⟨hregs, hreport⟩ := process_of_not_isUdp cfg s (of_decide_eq_false hp)
  exact Prod.ext hregs hreport

lemma reports_accounted (cfg : Config) (ps : List Packet) :
    reports (switchTrace cfg (accounted ps)) = reports (switchTrace cfg ps) := by
  rw [← map_snd_closings, ← map_snd_closings, switchTrace, switchTrace,
    (run_accounted cfg Registers.zero ps).2]

lemma reports_eq_windowReports {t : Tables} {i : Fin 1024} {tr : List (Packet × Option Report)}
    {closed : List (List Packet × Packet)}
    (h : closings tr = (closed.map Prod.snd).zip (windowReports t i (closed.map Prod.fst))) :
    reports tr = windowReports t i (closed.map Prod.fst) := by
  rw [← map_snd_closings, h, List.map_snd_zip]
  simp

/-! ## The cell machine -/

lemma lastFeatures_concat (tr : List (Packet × Option Report)) (p : Packet) (o : Option Report)
    (d : Direction) :
    lastFeatures (reports (tr ++ [(p, o)])) d =
      (o.map fun r => r.features d).getD (lastFeatures (reports tr) d) := by
  cases o <;> simp [lastFeatures, reports]

lemma lstMu_packetStep (cfg : Config) (c : Cell) (p : Packet) (d : Direction) :
    ((packetStep cfg c p).1.half d).lstMuSZE =
        ((packetStep cfg c p).2.map fun r => (r.features d).meanSZ).getD (c.half d).lstMuSZE ∧
      ((packetStep cfg c p).1.half d).lstMuIAT =
        ((packetStep cfg c p).2.map fun r => (r.features d).meanIAT).getD
          (c.half d).lstMuIAT := by
  by_cases hp : p.IsUdp
  · rw [packetStep_of_isUdp cfg c hp]
    unfold cellStep
    dsimp only
    split
    · -- A report: the means stored are the ones it shows.
      rw [half_init]
      split <;> exact ⟨rfl, rfl⟩
    · split
      · rw [half_init]
        split <;> exact ⟨rfl, rfl⟩
      · rw [half_update]
        split <;> exact ⟨rfl, rfl⟩
  · rw [packetStep_of_not_isUdp cfg c hp]
    exact ⟨rfl, rfl⟩

/-- The means a cell has stored are those of its last report. -/
lemma lstMu_cellRun (cfg : Config) (ps : List Packet) (d : Direction) :
    ((cellRun cfg ps).half d).lstMuSZE =
        (lastFeatures (reports (trace (packetStep cfg) Cell.zero ps)) d).meanSZ ∧
      ((cellRun cfg ps).half d).lstMuIAT =
        (lastFeatures (reports (trace (packetStep cfg) Cell.zero ps)) d).meanIAT := by
  induction ps using List.reverseRecOn with
  | nil => exact ⟨rfl, rfl⟩
  | append_singleton ps p ih =>
      have hstate : runState (packetStep cfg) Cell.zero ps = cellRun cfg ps := rfl
      obtain ⟨hSZE, hIAT⟩ := lstMu_packetStep cfg (cellRun cfg ps) p d
      rw [cellRun_concat, trace_concat, hstate, lastFeatures_concat, hSZE, hIAT]
      cases (packetStep cfg (cellRun cfg ps) p).2 with
      | none => exact ih
      | some r => exact ⟨rfl, rfl⟩

lemma half_cellRun_eq_windowHalf (cfg : Config) (ps : List Packet) (hpos : ∀ p ∈ ps, p.time ≠ 0)
    (d : Direction) :
    (cellRun cfg ps).half d =
      windowHalf (lastFeatures (reports (trace (packetStep cfg) Cell.zero ps)) d)
        (accumulatedIn cfg d ps) := by
  have hmem : ∀ p ∈ accumulatedIn cfg d ps, p.time ≠ 0 :=
    fun p hp => hpos p (mem_of_mem_accumulatedIn hp)
  obtain ⟨hmuS, hmuI⟩ := lstMu_cellRun cfg ps d
  have hfeed := half_cellRun cfg d ps
  generalize (cellRun cfg ps).half d = h at hmuS hmuI hfeed ⊢
  have hnb := Half.nbelem_feed_clear h (accumulatedIn cfg d ps)
  have hsum := Half.sumSZE_feed_clear h (accumulatedIn cfg d ps)
  have hdlt := Half.dltSZE_feed_clear h (accumulatedIn cfg d ps)
  have htst := Half.flowTst_feed_clear h (accumulatedIn cfg d ps)
  have hiat := Half.dltIAT_feed_clear h hmem
  rw [← hfeed] at hnb hsum hdlt htst hiat
  rw [hmuS] at hdlt
  rw [hmuI] at hiat
  obtain ⟨nb, sum, dlt, muS, tst, iat, muI⟩ := h
  simp only [windowHalf, Half.mk.injEq]
  exact ⟨hnb, hsum, hdlt, hmuS, htst, hiat, hmuI⟩

/-- With the window opened by `o`, the program's modular test is the plain one. -/
lemma windowOver_iff {c : Cell} {o p : Packet} (hc : c.flowFrstTime = o.time) (ho : o.time ≠ 0)
    (hle : o.time ≤ p.time) : c.WindowOver p.time ↔ sameWindow o p = false := by
  have hsub : (p.time - o.time).toNat = p.time.toNat - o.time.toNat := BitVec.toNat_sub_of_le hle
  have hlt : p.time - o.time > winSze ↔ 33000 < p.time.toNat - o.time.toNat := by
    rw [gt_iff_lt, BitVec.lt_def, hsub]
    rfl
  unfold Cell.WindowOver sameWindow
  rw [hc, hlt, decide_eq_false_iff_not, not_le]
  exact ⟨And.right, fun h => ⟨ho, h⟩⟩

/-- With the window opened by `o` and no key stored, only the end of the window opens another. -/
lemma opens_iff {c : Cell} {o p : Packet} (htrk : c.flowTracker = 0) (hc : c.flowFrstTime = o.time)
    (ho : o.time ≠ 0) : c.Opens p ↔ c.WindowOver p.time := by
  unfold Cell.Opens
  rw [swapSpace_of_flowTracker htrk, hc]
  tauto

/-- A cell after its packets accumulates the open window, and its reports are those of the closed
ones, each emitted by the packet that closed it. -/
private structure Refines (cfg : Config) (i : Fin 1024) (ps : List Packet) : Prop where
  accumulated : accumulated cfg ps = (cut sameWindow ps).openW
  closings : closings (trace (packetStep cfg) Cell.zero ps) =
    ((cut sameWindow ps).closed.map Prod.snd).zip
      (windowReports cfg.tables i ((cut sameWindow ps).closed.map Prod.fst))

section Steps

variable {cfg : Config} {i : Fin 1024} {ps : List Packet} {p : Packet}

private lemma closings_trace_concat (cfg : Config) (ps : List Packet) (p : Packet) :
    closings (trace (packetStep cfg) Cell.zero (ps ++ [p])) =
      closings (trace (packetStep cfg) Cell.zero ps) ++
        ((packetStep cfg (cellRun cfg ps) p).2.map (Prod.mk p)).toList := by
  rw [trace_concat, closings_concat]
  rfl

private lemma Refines.first (h : Refines cfg i ps) (hp : p.IsUdp)
    (hopen : (cut sameWindow ps).openW = []) : Refines cfg i (ps ++ [p]) := by
  have hzero : (cellRun cfg ps).flowFrstTime = 0 := by
    rw [flowFrstTime_cellRun, h.accumulated, hopen]
    rfl
  have hnot : ¬ (cellRun cfg ps).WindowOver p.time := fun hw => hw.1 hzero
  have hopens : (cellRun cfg ps).Opens p := Or.inr (Or.inr hzero)
  have hcut := cut_concat_first sameWindow hopen p
  refine ⟨?_, ?_⟩
  · rw [hcut, accumulated_concat, accumulate, if_pos hp, if_pos hopens]
  · rw [hcut, closings_trace_concat, h.closings, packetStep_of_isUdp cfg _ hp,
      cellStep_of_flowTracker cfg (flowTracker_cellRun cfg ps), if_neg hnot, if_pos hzero]
    exact List.append_nil _

private lemma Refines.joins (h : Refines cfg i ps) (hp : p.IsUdp) {o : Packet} {w : List Packet}
    (hopen : (cut sameWindow ps).openW = o :: w) (ho : o.time ≠ 0) (hle : o.time ≤ p.time)
    (hs : sameWindow o p = true) : Refines cfg i (ps ++ [p]) := by
  have hfo : (cellRun cfg ps).flowFrstTime = o.time := by
    rw [flowFrstTime_cellRun, h.accumulated, hopen]
    rfl
  have hnot : ¬ (cellRun cfg ps).WindowOver p.time := by
    rw [windowOver_iff hfo ho hle, hs]
    exact Bool.noConfusion
  have hzero : ¬ (cellRun cfg ps).flowFrstTime = 0 := by
    rw [hfo]
    exact ho
  have hopens : ¬ (cellRun cfg ps).Opens p :=
    (opens_iff (flowTracker_cellRun cfg ps) hfo ho).not.2 hnot
  have hcut := cut_concat_joins sameWindow hopen hs
  refine ⟨?_, ?_⟩
  · rw [hcut, accumulated_concat, accumulate, if_pos hp, if_neg hopens, h.accumulated, hopen]
  · rw [hcut, closings_trace_concat, h.closings, packetStep_of_isUdp cfg _ hp,
      cellStep_of_flowTracker cfg (flowTracker_cellRun cfg ps), if_neg hnot, if_neg hzero]
    exact List.append_nil _

private lemma Refines.closes (h : Refines cfg i ps) (hpos : ∀ q ∈ ps, q.time ≠ 0) (hp : p.IsUdp)
    (hpi : flowIndex cfg p = i) {o : Packet} {w : List Packet}
    (hopen : (cut sameWindow ps).openW = o :: w) (ho : o.time ≠ 0) (hle : o.time ≤ p.time)
    (hs : sameWindow o p = false) : Refines cfg i (ps ++ [p]) := by
  have hfo : (cellRun cfg ps).flowFrstTime = o.time := by
    rw [flowFrstTime_cellRun, h.accumulated, hopen]
    rfl
  have hw : (cellRun cfg ps).WindowOver p.time := (windowOver_iff hfo ho hle).2 hs
  have hopens : (cellRun cfg ps).Opens p :=
    (opens_iff (flowTracker_cellRun cfg ps) hfo ho).2 hw
  -- The registers show the window, on top of the reports before it.
  have hwin : (cellRun cfg ps).half =
      windowHalves cfg.tables
        (windowReports cfg.tables i ((cut sameWindow ps).closed.map Prod.fst)) (o :: w) := by
    funext d
    rw [half_cellRun_eq_windowHalf cfg ps hpos, reports_eq_windowReports h.closings,
      accumulatedIn, h.accumulated, hopen]
    rfl
  have hcut := cut_concat_closes sameWindow hopen hs
  refine ⟨?_, ?_⟩
  · rw [hcut, accumulated_concat, accumulate, if_pos hp, if_pos hopens]
  · rw [hcut, closings_trace_concat, h.closings, packetStep_of_isUdp cfg _ hp,
      cellStep_of_flowTracker cfg (flowTracker_cellRun cfg ps), if_pos hw, hpi, hwin]
    simp only [List.map_append, List.map_cons, List.map_nil, windowReports_concat]
    rw [List.zip_append (by simp)]
    rfl

end Steps

/-- **One cell refines the windows** of its packets: it accumulates the open window, and its
reports are those of the closed ones, each emitted by the packet that closed it. -/
theorem cell_refines_windows (cfg : Config) (i : Fin 1024) (ps : List Packet)
    (hudp : ∀ p ∈ ps, p.IsUdp) (hpos : ∀ p ∈ ps, p.time ≠ 0)
    (hmono : ps.Pairwise fun p q => p.time ≤ q.time) (hidx : ∀ p ∈ ps, flowIndex cfg p = i) :
    accumulated cfg ps = (cut sameWindow ps).openW ∧
      closings (trace (packetStep cfg) Cell.zero ps) =
        ((cut sameWindow ps).closed.map Prod.snd).zip
          (windowReports cfg.tables i ((cut sameWindow ps).closed.map Prod.fst)) := by
  suffices h : Refines cfg i ps from ⟨h.accumulated, h.closings⟩
  induction ps using List.reverseRecOn with
  | nil => exact ⟨rfl, rfl⟩
  | append_singleton ps p ih =>
      have hpos' : ∀ q ∈ ps, q.time ≠ 0 := fun q hq => hpos q (List.mem_append_left _ hq)
      have hmono' := List.pairwise_append.1 hmono
      have h : Refines cfg i ps := ih (fun q hq => hudp q (List.mem_append_left _ hq)) hpos'
        hmono'.1 (fun q hq => hidx q (List.mem_append_left _ hq))
      have hp : p.IsUdp := hudp p (by simp)
      cases hopen : (cut sameWindow ps).openW with
      | nil => exact h.first hp hopen
      | cons o w =>
          have ho : o ∈ ps := (openW_suffix sameWindow ps).subset (by simp [hopen])
          have hle : o.time ≤ p.time := hmono'.2.2 o ho p (by simp)
          cases hs : sameWindow o p with
          | true => exact h.joins hp hopen (hpos' o ho) hle hs
          | false => exact h.closes hpos' hp (hidx p (by simp)) hopen (hpos' o ho) hle hs

/-! ## The switch -/

/-- The packets of one direction in the open window of an index. -/
def openIn (cfg : Config) (i : Fin 1024) (d : Direction) (ps : List Packet) : List Packet :=
  (cut sameWindow (packetsAt cfg i ps)).openW.filter fun p => flowDir cfg.tables p = d

lemma mem_of_mem_openIn {cfg : Config} {i : Fin 1024} {d : Direction} {ps : List Packet}
    {p : Packet} (h : p ∈ openIn cfg i d ps) : p ∈ ps := by
  have hopen := (openW_suffix sameWindow (packetsAt cfg i ps)).subset (List.mem_of_mem_filter h)
  exact (mem_packetsAt.1 hopen).1

lemma length_openIn_le (cfg : Config) (i : Fin 1024) (d : Direction) (ps : List Packet) :
    (openIn cfg i d ps).length ≤ ps.length :=
  calc (openIn cfg i d ps).length
      ≤ (cut sameWindow (packetsAt cfg i ps)).openW.length := List.length_filter_le ..
    _ ≤ (packetsAt cfg i ps).length := (openW_suffix sameWindow _).length_le
    _ ≤ ps.length := List.length_filter_le ..

lemma index_refines_windows (cfg : Config) (i : Fin 1024) {ps : List Packet}
    (hudp : ∀ p ∈ ps, p.IsUdp) (hpos : ∀ p ∈ ps, p.time ≠ 0)
    (hmono : ps.Pairwise fun p q => p.time ≤ q.time) :
    accumulated cfg (packetsAt cfg i ps) = (cut sameWindow (packetsAt cfg i ps)).openW ∧
      closings (trace (packetStep cfg) Cell.zero (packetsAt cfg i ps)) =
        ((cut sameWindow (packetsAt cfg i ps)).closed.map Prod.snd).zip
          (windowReports cfg.tables i
            ((cut sameWindow (packetsAt cfg i ps)).closed.map Prod.fst)) :=
  have hmem : ∀ p ∈ packetsAt cfg i ps, p ∈ ps ∧ flowIndex cfg p = i := fun _ => mem_packetsAt.1
  cell_refines_windows cfg i (packetsAt cfg i ps) (fun p hp => hudp p (hmem p hp).1)
    (fun p hp => hpos p (hmem p hp).1) (hmono.filter _) (fun p hp => (hmem p hp).2)

lemma flowFrstTime_switchRun (cfg : Config) (i : Fin 1024) {ps : List Packet}
    (hudp : ∀ p ∈ ps, p.IsUdp) (hpos : ∀ p ∈ ps, p.time ≠ 0)
    (hmono : ps.Pairwise fun p q => p.time ≤ q.time) :
    ((switchRun cfg ps).cell i).flowFrstTime =
      firstTime (cut sameWindow (packetsAt cfg i ps)).openW := by
  rw [cell_switchRun, flowFrstTime_cellRun, (index_refines_windows cfg i hudp hpos hmono).1]

/-- What a cell accumulates in a direction is the open window of its index. -/
lemma accumulatedIn_packetsAt (cfg : Config) (i : Fin 1024) (d : Direction) {ps : List Packet}
    (hudp : ∀ p ∈ ps, p.IsUdp) (hpos : ∀ p ∈ ps, p.time ≠ 0)
    (hmono : ps.Pairwise fun p q => p.time ≤ q.time) :
    accumulatedIn cfg d (packetsAt cfg i ps) = openIn cfg i d ps := by
  rw [accumulatedIn, (index_refines_windows cfg i hudp hpos hmono).1, openIn]

/-- **The registers of a direction** are the fold of the open window from cleared registers. -/
lemma half_switchRun (cfg : Config) (i : Fin 1024) (d : Direction) {ps : List Packet}
    (hudp : ∀ p ∈ ps, p.IsUdp) (hpos : ∀ p ∈ ps, p.time ≠ 0)
    (hmono : ps.Pairwise fun p q => p.time ≤ q.time) :
    ((switchRun cfg ps).cell i).half d =
      (((switchRun cfg ps).cell i).half d).clear.feed (openIn cfg i d ps) := by
  rw [cell_switchRun, ← accumulatedIn_packetsAt cfg i d hudp hpos hmono]
  exact half_cellRun cfg d (packetsAt cfg i ps)

/-- The registers of a direction, field by field: what they say of the packets of the open window,
measured against the means stored from the window before. -/
lemma half_switchRun_fields (cfg : Config) (i : Fin 1024) (d : Direction) {ps : List Packet}
    (hudp : ∀ p ∈ ps, p.IsUdp) (hpos : ∀ p ∈ ps, p.time ≠ 0)
    (hmono : ps.Pairwise fun p q => p.time ≤ q.time) :
    let h := ((switchRun cfg ps).cell i).half d
    let w := openIn cfg i d ps
    h.nbelem = BitVec.ofNat 12 w.length ∧ h.sumSZE = BitVec.ofNat 32 (sizes w) ∧
      h.dltSZE =
        (if h.lstMuSZE = 0 then 0 else BitVec.ofInt 32 (sqDev h.lstMuSZE (w.map Packet.siz))) ∧
      h.dltIAT = iatDev h.lstMuIAT (iats (w.map Packet.time)) := by
  intro h w
  have hmem : ∀ p ∈ w, p.time ≠ 0 := fun p hp => hpos p (mem_of_mem_openIn hp)
  have hfeed : h = h.clear.feed w := half_switchRun cfg i d hudp hpos hmono
  have hnb := Half.nbelem_feed_clear h w
  have hsum := Half.sumSZE_feed_clear h w
  have hdlt := Half.dltSZE_feed_clear h w
  have hiat := Half.dltIAT_feed_clear h hmem
  rw [← hfeed] at hnb hsum hdlt hiat
  exact ⟨hnb, hsum, hdlt, hiat⟩

/-! ## The end of a window -/

/-- A packet arrives after the end of the open window of its index. -/
def ClosesWindow (cfg : Config) (pre : List Packet) (p : Packet) : Prop :=
  ∃ o w, (cut sameWindow (packetsAt cfg (flowIndex cfg p) pre)).openW = o :: w ∧
    sameWindow o p = false

section Run

variable {cfg : Config} {ps : List Packet} {p : Packet}

lemma windowOver_switchRun_iff (hudp : ∀ q ∈ ps ++ [p], q.IsUdp)
    (hpos : ∀ q ∈ ps ++ [p], q.time ≠ 0)
    (hmono : (ps ++ [p]).Pairwise fun q r => q.time ≤ r.time) :
    ((switchRun cfg ps).cell (flowIndex cfg p)).WindowOver p.time ↔ ClosesWindow cfg ps p := by
  have hsplit := List.pairwise_append.1 hmono
  have hfrst := flowFrstTime_switchRun cfg (flowIndex cfg p)
    (fun q hq => hudp q (List.mem_append_left _ hq))
    (fun q hq => hpos q (List.mem_append_left _ hq)) hsplit.1
  unfold ClosesWindow
  cases hopen : (cut sameWindow (packetsAt cfg (flowIndex cfg p) ps)).openW with
  | nil =>
      rw [hopen] at hfrst
      exact ⟨fun hw => absurd hfrst hw.1, by simp⟩
  | cons o w =>
      rw [hopen] at hfrst
      have ho : o ∈ ps := by
        have hsuffix := openW_suffix sameWindow (packetsAt cfg (flowIndex cfg p) ps)
        rw [hopen] at hsuffix
        exact (mem_packetsAt.1 (hsuffix.subset (List.mem_cons_self ..))).1
      have hover := windowOver_iff hfrst (hpos o (List.mem_append_left _ ho))
        (hsplit.2.2 o ho p (List.mem_singleton_self p))
      rw [hover]
      constructor
      · exact fun hs => ⟨o, w, rfl, hs⟩
      · rintro ⟨o', w', heq, hs⟩
        rw [(List.cons.inj heq).1]
        exact hs

end Run

/-! ## The refinement -/

lemma sizes_eq_totalLen (ps : List Packet) :
    sizes ps = (ps.map fun p => (p.hdr.ipv4.totalLen - 28).toNat).sum := by
  refine congrArg List.sum (List.map_congr_left fun p _ => ?_)
  rw [Packet.siz, BitVec.toNat_setWidth]
  exact Nat.mod_eq_of_lt (lt_trans (BitVec.isLt _) (by decide))

/-- **The register pipeline refines a windowed fold.**  After every run, and so after every packet
of a run, the registers at an index hold the start and the summary of the open window of its
packets, and the reports emitted there are the reports of the closed windows, one each and in
order, emitted by the packets that closed them.  The sizes summed up are the total lengths less 28,
in 16 bits. -/
theorem registers_refine_windows (cfg : Config) (ps : List Packet) (hudp : ∀ p ∈ ps, p.IsUdp)
    (hpos : ∀ p ∈ ps, p.time ≠ 0) (hmono : ps.Pairwise fun p q => p.time ≤ q.time)
    (i : Fin 1024) :
    let windows := cut sameWindow (packetsAt cfg i ps)
    let reported := windowReports cfg.tables i (windows.closed.map Prod.fst)
    ((switchRun cfg ps).cell i).flowFrstTime = firstTime windows.openW ∧
      (∀ d, ((switchRun cfg ps).cell i).half d =
        windowHalves cfg.tables reported windows.openW d) ∧
      (∀ d, (((switchRun cfg ps).cell i).half d).sumSZE = BitVec.ofNat 32
        ((windows.openW.filter fun p => flowDir cfg.tables p = d).map fun p =>
          (p.hdr.ipv4.totalLen - 28).toNat).sum) ∧
      closings ((switchTrace cfg ps).filter fun x => flowIndex cfg x.1 = i) =
        (windows.closed.map Prod.snd).zip reported := by
  intro windows reported
  have hpos' : ∀ p ∈ packetsAt cfg i ps, p.time ≠ 0 :=
    fun p hp => hpos p (mem_packetsAt.1 hp).1
  obtain ⟨hacc, hclo⟩ := index_refines_windows cfg i hudp hpos hmono
  have hrep : reports (trace (packetStep cfg) Cell.zero (packetsAt cfg i ps)) = reported :=
    reports_eq_windowReports hclo
  have hhalf : ∀ d, ((switchRun cfg ps).cell i).half d =
      windowHalves cfg.tables reported windows.openW d := by
    intro d
    rw [cell_switchRun, half_cellRun_eq_windowHalf cfg _ hpos', hrep, accumulatedIn, hacc]
    rfl
  refine ⟨flowFrstTime_switchRun cfg i hudp hpos hmono, hhalf, fun d => ?_, ?_⟩
  · rw [hhalf, ← sizes_eq_totalLen]
    rfl
  · rw [switchTrace_filter, hclo]

/-- Four packets of one conversation in two windows: the fourth arrives 39 ms after the first. -/
theorem registers_refine_windows_two_windows :
    let cfg : Config :=
      { hash := fun a _ => Fin.ofNat 1024 (a.toNat % 1024)
        tables := { Tables.empty with direc := [0xC0A8] } }
    let ps := [udpPacket 0x0A000002 0xC0A80001 1400 1000, udpPacket 0xC0A80001 0x0A000002 128 2500,
      udpPacket 0x0A000002 0xC0A80001 1400 34000, udpPacket 0x0A000002 0xC0A80001 900 40000]
    let windows := cut sameWindow (packetsAt cfg 1 ps)
    let reported := windowReports cfg.tables 1 (windows.closed.map Prod.fst)
    ((switchRun cfg ps).cell 1).flowFrstTime = firstTime windows.openW ∧
      (∀ d, ((switchRun cfg ps).cell 1).half d =
        windowHalves cfg.tables reported windows.openW d) ∧
      (∀ d, (((switchRun cfg ps).cell 1).half d).sumSZE = BitVec.ofNat 32
        ((windows.openW.filter fun p => flowDir cfg.tables p = d).map fun p =>
          (p.hdr.ipv4.totalLen - 28).toNat).sum) ∧
      closings ((switchTrace cfg ps).filter fun x => flowIndex cfg x.1 = 1) =
        (windows.closed.map Prod.snd).zip reported :=
  registers_refine_windows _ _
    (by
      intro p hp
      simp only [List.mem_cons, List.not_mem_nil, or_false] at hp
      rcases hp with rfl | rfl | rfl | rfl <;> exact isUdp_udpPacket ..)
    (by decide) (by decide) 1

end FlowClassifier
