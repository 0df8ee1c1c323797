import FlowClassifier.Properties.WindowedFold

/-!
# What the switch remembers

Of the windows it has closed a switch remembers little: at every index the means of the last one,
and of the fourteen values that were logged for it the four that were written last to their debug
arrays (`registers_remember`).  Nothing reads the debug arrays.

A window is closed by the first packet that comes 33 ms after its start.  So after a pause of more
than 33 ms at an index the next packet opens a window there, whatever was in the registers before,
and from then on the switch goes on as one that was just started (`reports_after_pause`).  What
outlasts the pause is the last means: the deviations of the first window after it are taken from
them, and the verdict on that window may be another.  The counts, the sums and the means of every
window, and everything about the later ones, are those of the started switch.
-/

namespace FlowClassifier

open Mealy

/-! ## What outlasts a window -/

/-- What a report leaves in the debug arrays: each holds the value written to it last. -/
def Report.debug (r : Report) : Debug :=
  ⟨(r.features .UP).nb, BitVec.ofNat 32 r.index, (r.features .UP).stdIAT, r.isCG⟩

lemma debug_packetStep (cfg : Config) (c : Cell) (p : Packet) :
    (packetStep cfg c p).1.debug = ((packetStep cfg c p).2.map Report.debug).getD c.debug := by
  by_cases hp : p.IsUdp
  · rw [packetStep_of_isUdp cfg c hp]
    unfold cellStep
    dsimp only
    split
    · rfl
    · split
      · rfl
      · rfl
  · rw [packetStep_of_not_isUdp cfg c hp]
    rfl

/-- **What is left of the closed windows.**  After every run from any registers, the debug arrays
hold at an index the last values of its last report, and the last means are the means of that
report; both are what they were if the index has not reported. -/
theorem registers_remember (cfg : Config) (regs : Registers) (ps : List Packet) (i : Fin 1024) :
    let rs := reportsAt i (trace (switchStep cfg) regs ps)
    let c := (runState (switchStep cfg) regs ps).cell i
    c.debug = (rs.map Report.debug).getLastD (regs.cell i).debug ∧
      ∀ d, (c.half d).lstMuSZE =
          (rs.map fun r => (r.features d).meanSZ).getLastD ((regs.cell i).half d).lstMuSZE ∧
        (c.half d).lstMuIAT =
          (rs.map fun r => (r.features d).meanIAT).getLastD ((regs.cell i).half d).lstMuIAT := by
  intro rs c
  have hrs : rs = outputs (trace (packetStep cfg) (regs.cell i) (packetsAt cfg i ps)) :=
    reportsAt_trace cfg regs ps i
  have hc : c = runState (packetStep cfg) (regs.cell i) (packetsAt cfg i ps) :=
    (switchStep_routed cfg).cell_runState ps regs i
  rw [hrs, hc]
  refine ⟨remembers Cell.debug Report.debug (debug_packetStep cfg) _ _, fun d => ⟨?_, ?_⟩⟩
  · exact remembers (fun c => (c.half d).lstMuSZE) (fun r : Report => (r.features d).meanSZ)
      (fun c p => (lstMu_packetStep cfg c p d).1) _ _
  · exact remembers (fun c => (c.half d).lstMuIAT) (fun r : Report => (r.features d).meanIAT)
      (fun c p => (lstMu_packetStep cfg c p d).2) _ _

/-! ## Agreement between cells -/

/-- The same packets have been counted in the window. -/
structure Half.SameCounts (h h' : Half) : Prop where
  nbelem : h.nbelem = h'.nbelem
  sumSZE : h.sumSZE = h'.sumSZE
  flowTst : h.flowTst = h'.flowTst

/-- The same window is open. The deviations and the means they are taken from may differ. -/
structure Cell.SameWindow (c c' : Cell) : Prop where
  flowTracker : c.flowTracker = c'.flowTracker
  flowFrstTime : c.flowFrstTime = c'.flowFrstTime
  half : ∀ d, (c.half d).SameCounts (c'.half d)

/-- All flow registers hold the same; the debug arrays, which nothing reads, may differ. -/
structure Cell.SameRegisters (c c' : Cell) : Prop where
  flowTracker : c.flowTracker = c'.flowTracker
  flowFrstTime : c.flowFrstTime = c'.flowFrstTime
  half : c.half = c'.half

/-- Two reports that agree except for the deviations, and what is decided with them. -/
structure Report.SameMeans (r r' : Report) : Prop where
  index : r.index = r'.index
  nb : ∀ d, (r.features d).nb = (r'.features d).nb
  sum : ∀ d, (r.features d).sum = (r'.features d).sum
  meanSZ : ∀ d, (r.features d).meanSZ = (r'.features d).meanSZ
  meanIAT : ∀ d, (r.features d).meanIAT = (r'.features d).meanIAT

lemma Report.SameMeans.refl (r : Report) : r.SameMeans r :=
  ⟨rfl, fun _ => rfl, fun _ => rfl, fun _ => rfl, fun _ => rfl⟩

section Steps

variable {cfg : Config} {c c' : Cell} {p : Packet}

/-- The quotients that become means depend on the counts and the sums. -/
lemma Half.SameCounts.divideHalf {h h' : Half} (hh : h.SameCounts h') (t : Tables) (d : Direction)
    {q q' : Division} (hsz : q.mMeanSZ = q'.mMeanSZ) (hiat : q.mMeanIAT = q'.mMeanIAT) :
    (divideHalf t d q h).mMeanSZ = (divideHalf t d q' h').mMeanSZ ∧
      (divideHalf t d q h).mMeanIAT = (divideHalf t d q' h').mMeanIAT := by
  unfold FlowClassifier.divideHalf
  rw [hh.nbelem]
  split
  · split
    · exact ⟨by simp only [PowParams.division, hh.sumSZE], rfl⟩
    · exact ⟨hsz, hiat⟩
  · exact ⟨hsz, hiat⟩

lemma Half.SameCounts.halfFeatures {h h' : Half} (hh : h.SameCounts h') {q q' : Division}
    (hsz : q.mMeanSZ = q'.mMeanSZ) (hiat : q.mMeanIAT = q'.mMeanIAT) :
    let ft := halfFeatures q h
    let ft' := halfFeatures q' h'
    ft.nb = ft'.nb ∧ ft.sum = ft'.sum ∧ ft.meanSZ = ft'.meanSZ ∧ ft.meanIAT = ft'.meanIAT := by
  simp only [FlowClassifier.halfFeatures, hh.nbelem, hh.sumSZE]
  split
  · exact ⟨rfl, rfl, hsz, hiat⟩
  · exact ⟨rfl, rfl, rfl, rfl⟩

lemma Cell.SameWindow.windowReport (h : c.SameWindow c') (t : Tables) (i : Fin 1024) :
    (windowReport t i c.half).SameMeans (windowReport t i c'.half) := by
  have hdw := (h.half .DW).divideHalf t .DW (q := Division.zero) rfl rfl
  have hup := (h.half .UP).divideHalf t .UP hdw.1 hdw.2
  have hft : ∀ d,
      let ft := windowFeatures t c.half d
      let ft' := windowFeatures t c'.half d
      ft.nb = ft'.nb ∧ ft.sum = ft'.sum ∧ ft.meanSZ = ft'.meanSZ ∧ ft.meanIAT = ft'.meanIAT := by
    intro d
    cases d with
    | DW => exact (h.half .DW).halfFeatures hdw.1 hdw.2
    | UP => exact (h.half .UP).halfFeatures hup.1 hup.2
  exact ⟨rfl, fun d => (hft d).1, fun d => (hft d).2.1, fun d => (hft d).2.2.1,
    fun d => (hft d).2.2.2⟩

lemma Cell.SameWindow.windowOver_iff (h : c.SameWindow c') (t : BitVec 48) :
    c.WindowOver t ↔ c'.WindowOver t := by
  rw [Cell.WindowOver, Cell.WindowOver, h.flowFrstTime]

lemma Cell.SameWindow.swapSpace (h : c.SameWindow c') (key : BitVec 64) :
    c.swapSpace key = c'.swapSpace key := by
  rw [Cell.swapSpace, Cell.swapSpace, h.flowTracker]

lemma sameWindow_init (hkey : c.flowTracker = c'.flowTracker) (d : Direction) (siz : BitVec 32)
    (t : BitVec 48) : (c.init d siz t).SameWindow (c'.init d siz t) := by
  refine ⟨hkey, rfl, fun e => ?_⟩
  simp only [Cell.init]
  split
  · exact ⟨rfl, rfl, rfl⟩
  · exact ⟨rfl, rfl, rfl⟩

lemma Cell.SameWindow.update (h : c.SameWindow c') (d : Direction) (siz : BitVec 32)
    (t : BitVec 48) : (c.update d siz t).SameWindow (c'.update d siz t) := by
  refine ⟨h.flowTracker, h.flowFrstTime, fun e => ?_⟩
  simp only [Cell.update]
  split
  · exact ⟨congrArg (· + 1) (h.half d).nbelem, congrArg (· + siz) (h.half d).sumSZE, rfl⟩
  · exact h.half e

/-- Of what was there before, a new window keeps the last means. -/
lemma Half.init_congr {h h' : Half} (hsz : h.lstMuSZE = h'.lstMuSZE)
    (hiat : h.lstMuIAT = h'.lstMuIAT) (siz : BitVec 32) (t : BitVec 48) :
    h.init siz t = h'.init siz t := by
  obtain ⟨_, _, _, _, _, _, _⟩ := h
  obtain ⟨_, _, _, _, _, _, _⟩ := h'
  obtain rfl := hsz
  obtain rfl := hiat
  rfl

lemma Half.clear_congr {h h' : Half} (hsz : h.lstMuSZE = h'.lstMuSZE)
    (hiat : h.lstMuIAT = h'.lstMuIAT) : h.clear = h'.clear := by
  simp only [Half.clear, hsz, hiat]

lemma Cell.SameWindow.close_init (h : c.SameWindow c') (t : Tables) (i : Fin 1024) (d : Direction)
    (siz : BitVec 32) (now : BitVec 48) :
    ((c.close t i).init d siz now).SameRegisters ((c'.close t i).init d siz now) := by
  have hmeans := h.windowReport t i
  have hsz : ∀ e, (windowFeatures t c.half e).meanSZ = (windowFeatures t c'.half e).meanSZ :=
    hmeans.meanSZ
  have hiat : ∀ e, (windowFeatures t c.half e).meanIAT = (windowFeatures t c'.half e).meanIAT :=
    hmeans.meanIAT
  refine ⟨h.flowTracker, rfl, ?_⟩
  funext e
  simp only [Cell.init, Cell.close]
  split
  · exact Half.init_congr (hsz d) (hiat d) siz now
  · exact Half.clear_congr (hsz e) (hiat e)

/-- A packet at cells with the same window: they go on with the same window, or both close it, with
the same means, and are the same from then on. -/
lemma Cell.SameWindow.packetStep (h : c.SameWindow c') (p : Packet) :
    ((packetStep cfg c p).2 = none ∧ (packetStep cfg c' p).2 = none ∧
      (packetStep cfg c p).1.SameWindow (packetStep cfg c' p).1) ∨
    ∃ r r', (packetStep cfg c p).2 = some r ∧ (packetStep cfg c' p).2 = some r' ∧
      r.SameMeans r' ∧ (packetStep cfg c p).1.SameRegisters (packetStep cfg c' p).1 := by
  by_cases hp : p.IsUdp
  · rw [packetStep_of_isUdp cfg c hp, packetStep_of_isUdp cfg c' hp]
    unfold cellStep
    simp only [h.windowOver_iff, h.swapSpace, h.flowFrstTime]
    split
    · exact .inr ⟨_, _, rfl, rfl, h.windowReport _ _, h.close_init _ _ _ _ _⟩
    · left
      split
      · exact ⟨rfl, rfl, sameWindow_init h.flowTracker _ _ _⟩
      · exact ⟨rfl, rfl, h.update _ _ _⟩
  · rw [packetStep_of_not_isUdp cfg c hp, packetStep_of_not_isUdp cfg c' hp]
    exact .inl ⟨rfl, rfl, h⟩

lemma Cell.SameRegisters.sameWindow (h : c.SameRegisters c') : c.SameWindow c' :=
  ⟨h.flowTracker, h.flowFrstTime, fun d => by rw [h.half]; exact ⟨rfl, rfl, rfl⟩⟩

/-- Nothing reads the debug arrays. -/
lemma Cell.SameRegisters.packetStep (h : c.SameRegisters c') (p : Packet) :
    (packetStep cfg c p).1.SameRegisters (packetStep cfg c' p).1 ∧
      (packetStep cfg c p).2 = (packetStep cfg c' p).2 := by
  by_cases hp : p.IsUdp
  · rw [packetStep_of_isUdp cfg c hp, packetStep_of_isUdp cfg c' hp]
    unfold cellStep
    simp only [h.sameWindow.windowOver_iff, h.sameWindow.swapSpace, h.flowFrstTime, h.half]
    split
    · refine ⟨⟨h.flowTracker, rfl, ?_⟩, rfl⟩
      simp only [Cell.init, Cell.close, h.half]
    · split
      · refine ⟨⟨h.flowTracker, rfl, ?_⟩, rfl⟩
        simp only [Cell.init, h.half]
      · refine ⟨⟨h.flowTracker, h.flowFrstTime, ?_⟩, rfl⟩
        simp only [Cell.update, h.half]
  · rw [packetStep_of_not_isUdp cfg c hp, packetStep_of_not_isUdp cfg c' hp]
    exact ⟨h, rfl⟩

/-! ## The pause -/

/-- The window of a cell, if one is open, was not over at a time. -/
def Cell.Recent (t : BitVec 48) (c : Cell) : Prop :=
  c.flowFrstTime = 0 ∨ t - c.flowFrstTime ≤ winSze

lemma recent_packetStep (hp : p.IsUdp) (c : Cell) : (packetStep cfg c p).1.Recent p.time := by
  have hself : p.time - p.time ≤ winSze := by
    rw [BitVec.sub_self, winSze]
    bv_omega
  rw [packetStep_of_isUdp cfg c hp, cellStep]
  split
  · exact .inr hself
  · rename_i hw
    split
    · exact .inr hself
    · rename_i hopens
      rw [not_or] at hopens
      right
      rw [Cell.WindowOver, not_and] at hw
      exact BitVec.not_lt.1 (hw hopens.2)

lemma Cell.Recent.windowOver {t now : BitVec 48} (h : c.Recent t) (hpause : winSze < now - t)
    (hclock : now - t < -winSze) : c.flowFrstTime = 0 ∨ c.WindowOver now := by
  rcases h with h | h
  · exact .inl h
  · by_cases hzero : c.flowFrstTime = 0
    · exact .inl hzero
    · refine .inr ⟨hzero, ?_⟩
      rw [winSze] at *
      bv_omega

/-- A packet that finds the window over, or none, opens one. -/
lemma sameWindow_of_windowOver (hp : p.IsUdp) (hkey : c.flowTracker = c'.flowTracker)
    (h : c.flowFrstTime = 0 ∨ c.WindowOver p.time)
    (h' : c'.flowFrstTime = 0 ∨ c'.WindowOver p.time) :
    (packetStep cfg c p).1.SameWindow (packetStep cfg c' p).1 := by
  have hopens : ∀ b : Cell, b.flowFrstTime = 0 ∨ b.WindowOver p.time →
      ∃ a : Cell, a.flowTracker = b.flowTracker ∧
        (packetStep cfg b p).1 = a.init (flowDir cfg.tables p) p.siz p.time := by
    intro b hb
    rw [packetStep_of_isUdp cfg b hp, cellStep]
    by_cases hw : b.WindowOver p.time
    · exact ⟨b.close cfg.tables (flowIndex cfg p), rfl, by rw [if_pos hw]⟩
    · have hzero := hb.resolve_right hw
      exact ⟨b, rfl, by rw [if_neg hw, if_pos (.inr hzero)]⟩
  obtain ⟨a, ha, hstep⟩ := hopens c h
  obtain ⟨a', ha', hstep'⟩ := hopens c' h'
  rw [hstep, hstep']
  exact sameWindow_init (by rw [ha, ha', hkey]) _ _ _

end Steps

/-- Packets of other indexes, and packets that are not accounted, leave a cell as it is. -/
lemma cell_runState_of_idle {cfg : Config} {i : Fin 1024} {ps : List Packet}
    (h : ∀ x ∈ ps, x.IsUdp → flowIndex cfg x ≠ i) (regs : Registers) :
    (runState (switchStep cfg) regs ps).cell i = regs.cell i := by
  have hnone : (accounted ps).filter (fun x => flowIndex cfg x = i) = [] := by
    refine List.filter_eq_nil_iff.2 fun x hx => ?_
    obtain ⟨hmem, hudp⟩ := mem_accounted.1 hx
    simpa using h x hmem hudp
  rw [← (run_accounted cfg regs ps).1, (switchStep_routed cfg).cell_runState, hnone, runState_nil]

lemma flowTracker_runState (cfg : Config) (ps : List Packet) (c : Cell) :
    (runState (packetStep cfg) c ps).flowTracker = c.flowTracker := by
  induction ps generalizing c with
  | nil => rfl
  | cons p ps ih => rw [runState_cons, ih, flowTracker_packetStep]

lemma cell_switchStep (cfg : Config) {i : Fin 1024} {p : Packet} (hpi : flowIndex cfg p = i)
    (regs : Registers) :
    ((switchStep cfg regs p).1).cell i = (packetStep cfg (regs.cell i) p).1 := by
  rw [← hpi]
  exact (switchStep_routed cfg).own regs p

/-- While no packet comes, the window of the last one stays as it left it. -/
lemma recent_runState {cfg : Config} {i : Fin 1024} {mid : List Packet} {q : Packet} (hq : q.IsUdp)
    (hqi : flowIndex cfg q = i) (hmid : ∀ x ∈ mid, x.IsUdp → flowIndex cfg x ≠ i)
    (regs : Registers) (pre : List Packet) :
    ((runState (switchStep cfg) regs (pre ++ q :: mid)).cell i).Recent q.time := by
  have hsplit : runState (switchStep cfg) regs (pre ++ q :: mid) = runState (switchStep cfg)
      (switchStep cfg (runState (switchStep cfg) regs pre) q).1 mid := by
    simp only [runState, List.foldl_append, List.foldl_cons]
  rw [hsplit, cell_runState_of_idle hmid, cell_switchStep cfg hqi]
  exact recent_packetStep hq _

lemma switchStep_zero (cfg : Config) {p : Packet} (hp : p.IsUdp) :
    (switchStep cfg Registers.zero p).2 = none := by
  have hout := (switchStep_routed cfg).out Registers.zero p
  rw [hout, packetStep_of_isUdp cfg _ hp, cellStep,
    if_neg (fun hw : Cell.WindowOver p.time _ => hw.1 rfl), if_pos (.inr rfl)]

lemma reports_of_sameWindow (cfg : Config) {regs regs' : Registers} {i : Fin 1024}
    (h : (regs.cell i).SameWindow (regs'.cell i)) (ps : List Packet) :
    let rs := reportsAt i (trace (switchStep cfg) regs ps)
    let rs' := reportsAt i (trace (switchStep cfg) regs' ps)
    List.Forall₂ Report.SameMeans rs rs' ∧ rs.tail = rs'.tail ∧
      (rs ≠ [] → ((runState (switchStep cfg) regs ps).cell i).SameRegisters
        ((runState (switchStep cfg) regs' ps).cell i)) := by
  rw [reportsAt_trace, reportsAt_trace, (switchStep_routed cfg).cell_runState,
    (switchStep_routed cfg).cell_runState]
  exact agree_after_output Cell.SameWindow Cell.SameRegisters Report.SameMeans
    Report.SameMeans.refl (fun _ _ p hc => hc.packetStep p) (fun _ _ p hc => hc.packetStep p)
    (packetsAt cfg i ps) h

end FlowClassifier
