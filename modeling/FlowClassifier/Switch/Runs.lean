import Mathlib.Data.Sym.Sym2
import FlowClassifier.Switch.Cell

/-!
# Runs of the switch

A run feeds a list of packets to a switch whose registers start at zero, for fixed table contents
and a fixed hash.  `switchRun` is the registers it ends with, `switchTrace` every packet with the
report it emitted or none, and `cellRun` what a single cell goes through.  The routed view of
`Switch/Cell.lean` connects them: a cell of a run is the run of that cell on the packets of its
index (`cell_switchRun`, `switchTrace_filter`).

One fact about every run is settled here because everything else leans on it: no action writes
`flow_tracker`, so the key read from it is zero in every run and the collision product with it
(`swapSpace_switchRun`).
-/

namespace FlowClassifier

open Mealy

/-- A conversation: the unordered pair of addresses of a packet. -/
def Packet.conversation (p : Packet) : Sym2 (BitVec 32) := s(p.src, p.dst)

/-- The registers after a run from a freshly started switch. -/
def switchRun (cfg : Config) (ps : List Packet) : Registers :=
  runState (switchStep cfg) Registers.zero ps

/-- The packets of a run, each with its report or none. -/
def switchTrace (cfg : Config) (ps : List Packet) : List (Packet × Option Report) :=
  trace (switchStep cfg) Registers.zero ps

/-- The state of one cell after a list of packets. -/
def cellRun (cfg : Config) (ps : List Packet) : Cell := runState (packetStep cfg) Cell.zero ps

/-- The packets of a run that are routed to one index. -/
def packetsAt (cfg : Config) (i : Fin 1024) (ps : List Packet) : List Packet :=
  ps.filter fun p => flowIndex cfg p = i

/-- The reports of a list of outcomes, in order. -/
def reports (tr : List (Packet × Option Report)) : List Report := tr.filterMap Prod.snd

lemma cell_switchRun (cfg : Config) (ps : List Packet) (i : Fin 1024) :
    (switchRun cfg ps).cell i = cellRun cfg (packetsAt cfg i ps) :=
  (switchStep_routed cfg).cell_runState ps Registers.zero i

lemma switchTrace_filter (cfg : Config) (ps : List Packet) (i : Fin 1024) :
    (switchTrace cfg ps).filter (fun x => flowIndex cfg x.1 = i) =
      trace (packetStep cfg) Cell.zero (packetsAt cfg i ps) :=
  (switchStep_routed cfg).trace_filter ps Registers.zero i

lemma switchRun_concat (cfg : Config) (ps : List Packet) (p : Packet) :
    switchRun cfg (ps ++ [p]) = (process cfg (switchRun cfg ps) p).regs :=
  runState_concat (switchStep cfg) Registers.zero ps p

lemma cellRun_concat (cfg : Config) (ps : List Packet) (p : Packet) :
    cellRun cfg (ps ++ [p]) = (packetStep cfg (cellRun cfg ps) p).1 :=
  runState_concat (packetStep cfg) Cell.zero ps p

lemma packetsAt_append (cfg : Config) (i : Fin 1024) (ps qs : List Packet) :
    packetsAt cfg i (ps ++ qs) = packetsAt cfg i ps ++ packetsAt cfg i qs :=
  List.filter_append ..

lemma packetsAt_singleton (cfg : Config) (p : Packet) :
    packetsAt cfg (flowIndex cfg p) [p] = [p] := by
  simp [packetsAt]

lemma mem_packetsAt {cfg : Config} {i : Fin 1024} {ps : List Packet} {p : Packet} :
    p ∈ packetsAt cfg i ps ↔ p ∈ ps ∧ flowIndex cfg p = i := by
  simp [packetsAt]

/-- A place in the packets of an index is a place in the run. -/
lemma exists_split_of_packetsAt {cfg : Config} {i : Fin 1024} {ps pre' post' : List Packet}
    {p : Packet} (h : packetsAt cfg i ps = pre' ++ p :: post') :
    ∃ pre post, ps = pre ++ p :: post ∧ packetsAt cfg i pre = pre' := by
  obtain ⟨l₁, l₂, hps, hpre, htail⟩ := List.filter_eq_append_iff.1 h
  obtain ⟨m₁, m₂, hl₂, hm₁, -, -⟩ := List.filter_eq_cons_iff.1 htail
  refine ⟨l₁ ++ m₁, m₂, by rw [hps, hl₂, List.append_assoc], ?_⟩
  have hnone : packetsAt cfg i m₁ = [] := List.filter_eq_nil_iff.2 hm₁
  rw [packetsAt_append, hnone, List.append_nil]
  exact hpre

/-- A report is that of the window the packet found at its index. -/
lemma report_eq_windowReport {cfg : Config} {regs : Registers} {p : Packet} {r : Report}
    (h : p.IsUdp) (hr : (process cfg regs p).report = some r) :
    (regs.cell (flowIndex cfg p)).WindowOver p.time ∧
      r = windowReport cfg.tables (flowIndex cfg p) (regs.cell (flowIndex cfg p)).half := by
  obtain ⟨-, -, hrep, -⟩ := process_spec cfg regs h
  rw [hrep] at hr
  unfold cellStep at hr
  split at hr
  · rename_i hw
    exact ⟨hw, (Option.some.inj hr).symm⟩
  · split at hr <;> exact absurd hr (by simp)

/-- A packet that finds the window of its index over emits the report of that window. -/
lemma report_of_windowOver {cfg : Config} {regs : Registers} {p : Packet} (h : p.IsUdp)
    (hw : (regs.cell (flowIndex cfg p)).WindowOver p.time) :
    (process cfg regs p).report =
      some (windowReport cfg.tables (flowIndex cfg p) (regs.cell (flowIndex cfg p)).half) := by
  obtain ⟨-, -, hrep, -⟩ := process_spec cfg regs h
  rw [hrep]
  unfold cellStep
  simp only [hw, if_true]

/-- The reports of one index. -/
def reportsAt (i : Fin 1024) (tr : List (Packet × Option Report)) : List Report :=
  (reports tr).filter fun r => r.index = i

/-- A report carries the index of the packet that emits it. -/
lemma index_of_mem_trace {cfg : Config} {regs : Registers} {ps : List Packet} {p : Packet}
    {r : Report} (h : (p, some r) ∈ trace (switchStep cfg) regs ps) :
    r.index = flowIndex cfg p := by
  obtain ⟨pre, post, -, hout⟩ := (mem_trace_iff _).1 h
  have hreport : (process cfg (runState (switchStep cfg) regs pre) p).report = some r := hout
  by_cases hp : p.IsUdp
  · obtain ⟨-, rfl⟩ := report_eq_windowReport hp hreport
    rfl
  · rw [(process_of_not_isUdp cfg _ hp).2] at hreport
    exact absurd hreport (by simp)

/-- The reports of an index are those of its own cell on its own packets. -/
lemma reportsAt_trace (cfg : Config) (regs : Registers) (ps : List Packet) (i : Fin 1024) :
    reportsAt i (trace (switchStep cfg) regs ps) =
      reports (trace (packetStep cfg) (regs.cell i) (packetsAt cfg i ps)) := by
  have hown := (switchStep_routed cfg).trace_filter ps regs i
  rw [packetsAt, ← hown, reportsAt, reports, reports, List.filter_filterMap,
    List.filterMap_filter]
  refine List.filterMap_congr fun x hx => ?_
  obtain ⟨p, out⟩ := x
  cases out with
  | none => simp
  | some r => simp [Option.filter, index_of_mem_trace hx]

/-- A UDP packet with the given addresses, total length and arrival time, from port 1, with a
20-byte IPv4 header, `ttl` 64 and no fragmentation. -/
def udpPacket (src dst : BitVec 32) (totalLen : BitVec 16) (time : BitVec 48) : Packet where
  hdr :=
    { packetOut := ⟨false, 0, 0⟩
      ethernet := ⟨true, 2, 1, 0x0800⟩
      ipv4 :=
        { isValid := true, version := 4, ihl := 5, diffserv := 0, totalLen := totalLen
          identification := 0, flags := 2, fragOffset := 0, ttl := 64, protocol := 17
          hdrChecksum := 0, srcAddr := src, dstAddr := dst }
      udp := ⟨true, 4000, 5000, totalLen - 20, 0⟩ }
  std := ⟨1, 0, 0, time⟩

lemma isUdp_udpPacket (src dst : BitVec 32) (totalLen : BitVec 16) (time : BitVec 48) :
    (udpPacket src dst totalLen time).IsUdp :=
  ⟨rfl, (by decide : (64 : BitVec 8) > 0), rfl⟩

/-! ## The flow key is never written -/

@[simp] lemma flowTracker_cellStep (cfg : Config) (c : Cell) (p : Packet) :
    (cellStep cfg c p).1.flowTracker = c.flowTracker := by
  unfold cellStep
  simp only []
  split
  · rfl
  · split <;> rfl

@[simp] lemma flowTracker_packetStep (cfg : Config) (c : Cell) (p : Packet) :
    (packetStep cfg c p).1.flowTracker = c.flowTracker := by
  by_cases h : p.IsUdp
  · rw [packetStep_of_isUdp cfg c h, flowTracker_cellStep]
  · rw [packetStep_of_not_isUdp cfg c h]

lemma flowTracker_cellRun (cfg : Config) (ps : List Packet) :
    (cellRun cfg ps).flowTracker = 0 := by
  induction ps using List.reverseRecOn with
  | nil => rfl
  | append_singleton ps p ih => rw [cellRun_concat, flowTracker_packetStep, ih]

lemma swapSpace_of_flowTracker {c : Cell} (h : c.flowTracker = 0) (key : BitVec 64) :
    c.swapSpace key = 0 := by
  simp [Cell.swapSpace, h]

/-- **In every run the collision product is zero**, whatever key the packet carries. -/
lemma swapSpace_switchRun (cfg : Config) (ps : List Packet) (i : Fin 1024) (key : BitVec 64) :
    ((switchRun cfg ps).cell i).swapSpace key = 0 := by
  rw [cell_switchRun]
  exact swapSpace_of_flowTracker (flowTracker_cellRun cfg _) key

/-- The cell machine where no key was ever stored. -/
lemma cellStep_of_flowTracker (cfg : Config) {c : Cell} (h : c.flowTracker = 0) (p : Packet) :
    cellStep cfg c p =
      if c.WindowOver p.time then
        ((c.close cfg.tables (flowIndex cfg p)).init (flowDir cfg.tables p) p.siz p.time,
          some (windowReport cfg.tables (flowIndex cfg p) c.half))
      else if c.flowFrstTime = 0 then (c.init (flowDir cfg.tables p) p.siz p.time, none)
      else (c.update (flowDir cfg.tables p) p.siz p.time, none) := by
  simp [cellStep, swapSpace_of_flowTracker h]

end FlowClassifier
