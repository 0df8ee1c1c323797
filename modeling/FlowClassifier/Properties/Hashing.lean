import FlowClassifier.Properties.WindowedFold

/-!
# Only collisions matter

The hash is asked for one thing, which packets share an index.  Two hash functions that put the same
UDP packets of a run together give the same windows, features and verdicts, each report under the
index its own hash gives it (`closings_hash`); so a hash without collisions on the traffic is as
good as any other, and with collisions it is the pairs that collide that count, not where.
-/

namespace FlowClassifier

open Mealy

/-- The same registers, except for the debug array that the index itself is written to. -/
structure Cell.SameFlow (c c' : Cell) : Prop where
  flowTracker : c'.flowTracker = c.flowTracker
  flowFrstTime : c'.flowFrstTime = c.flowFrstTime
  half : c'.half = c.half
  write12Bits : c'.debug.write12Bits = c.debug.write12Bits
  write48Bits : c'.debug.write48Bits = c.debug.write48Bits
  write1Bit : c'.debug.write1Bit = c.debug.write1Bit

/-- A report under another index. -/
def Report.reindex (i : Fin 1024) (r : Report) : Report := { r with index := i }

section Step

variable {cfg cfg' : Config}

lemma packetStep_sameFlow (htables : cfg'.tables = cfg.tables) {c c' : Cell}
    (h : c.SameFlow c') (p : Packet) :
    (packetStep cfg c p).1.SameFlow (packetStep cfg' c' p).1 ∧
      (packetStep cfg' c' p).2 =
        (packetStep cfg c p).2.map (Report.reindex (flowIndex cfg' p)) := by
  by_cases hp : p.IsUdp
  · have hover : c'.WindowOver p.time ↔ c.WindowOver p.time := by
      rw [Cell.WindowOver, Cell.WindowOver, h.flowFrstTime]
    have hswap : c'.swapSpace p.key = c.swapSpace p.key := by
      rw [Cell.swapSpace, Cell.swapSpace, h.flowTracker]
    rw [packetStep_of_isUdp cfg c hp, packetStep_of_isUdp cfg' c' hp]
    unfold cellStep
    simp only [hover, hswap, h.flowFrstTime, htables]
    split
    · refine ⟨⟨h.flowTracker, rfl, ?_, ?_, ?_, ?_⟩, ?_⟩
      · simp only [Cell.init, Cell.close, h.half]
      · simp only [Cell.init, Cell.close, h.half]
      · simp only [Cell.init, Cell.close, h.half]
      · simp only [Cell.init, Cell.close, h.half]
      · simp only [Option.map_some, Report.reindex, windowReport, h.half]
    · split
      · refine ⟨⟨h.flowTracker, rfl, ?_, h.write12Bits, h.write48Bits, h.write1Bit⟩, rfl⟩
        simp only [Cell.init, h.half]
      · refine ⟨⟨h.flowTracker, h.flowFrstTime, ?_, h.write12Bits, h.write48Bits, h.write1Bit⟩,
          rfl⟩
        simp only [Cell.update, h.half]
  · rw [packetStep_of_not_isUdp cfg c hp, packetStep_of_not_isUdp cfg' c' hp]
    exact ⟨h, rfl⟩

end Step

/-- **Only collisions matter.**  Two hash functions that put the same UDP packets of a run together
give the same windows: every packet that closes one under the first hash closes one with the same
features and verdict under the second, and the registers of its index hold the same. -/
theorem closings_hash {cfg cfg' : Config} (htables : cfg'.tables = cfg.tables) {ps : List Packet}
    (hsame : ∀ p ∈ ps, ∀ q ∈ ps, p.IsUdp → q.IsUdp →
      (flowIndex cfg p = flowIndex cfg q ↔ flowIndex cfg' p = flowIndex cfg' q)) :
    closings (switchTrace cfg' ps) =
        (closings (switchTrace cfg ps)).map
          (fun x => (x.1, x.2.reindex (flowIndex cfg' x.1))) ∧
      ∀ p ∈ ps, p.IsUdp →
        ((switchRun cfg ps).cell (flowIndex cfg p)).SameFlow
          ((switchRun cfg' ps).cell (flowIndex cfg' p)) := by
  have hmem : ∀ p, p ∈ accounted ps ↔ p ∈ ps ∧ p.IsUdp := fun _ => mem_accounted
  obtain ⟨hrun, htrace⟩ := (switchStep_routed cfg).simulation (switchStep_routed cfg')
    (fun k k' => ∃ p ∈ ps, p.IsUdp ∧ flowIndex cfg p = k ∧ flowIndex cfg' p = k') Cell.SameFlow id
    (fun p r => r.map (Report.reindex (flowIndex cfg' p))) (accounted ps)
    (fun p hp => ⟨p, ((hmem p).1 hp).1, ((hmem p).1 hp).2, rfl, rfl⟩)
    (fun p hp k k' hk => by
      obtain ⟨q, hq, hqudp, rfl, rfl⟩ := hk
      exact hsame q hq p ((hmem p).1 hp).1 hqudp ((hmem p).1 hp).2)
    (fun c c' p _ hc => packetStep_sameFlow htables hc p)
    Registers.zero Registers.zero (fun k k' _ => ⟨rfl, rfl, rfl, rfl, rfl, rfl⟩)
  rw [List.map_id] at hrun htrace
  obtain ⟨hcfg, hcfg'⟩ := run_accounted cfg Registers.zero ps
  obtain ⟨hcfg2, hcfg2'⟩ := run_accounted cfg' Registers.zero ps
  constructor
  · rw [switchTrace, switchTrace, ← hcfg2', ← hcfg', htrace, closings, closings,
      List.filterMap_map, List.map_filterMap]
    congr 1
    funext x
    obtain ⟨p, out⟩ := x
    cases out <;> rfl
  · intro p hp hudp
    rw [switchRun, switchRun, ← hcfg, ← hcfg2]
    exact hrun _ _ ⟨p, hp, hudp, rfl, rfl⟩

/-- Two clients, two indexes under either hash. -/
theorem closings_hash_two_clients :
    let tables : Tables := { Tables.empty with direc := [0xC0A8] }
    let cfg : Config := ⟨fun a _ => if a = 0xC0A80001 then 1 else 2, tables⟩
    let cfg' : Config := ⟨fun a _ => if a = 0xC0A80001 then 700 else 3, tables⟩
    let ps := [udpPacket 0x0A000002 0xC0A80001 1400 1000,
      udpPacket 0x0A000002 0xC0A80002 1400 1500, udpPacket 0x0A000002 0xC0A80001 1400 40000]
    closings (switchTrace cfg' ps) =
      (closings (switchTrace cfg ps)).map (fun x => (x.1, x.2.reindex (flowIndex cfg' x.1))) := by
  intro tables cfg cfg' ps
  have hsame : ∀ p ∈ ps, ∀ q ∈ ps, p.IsUdp → q.IsUdp →
      (flowIndex cfg p = flowIndex cfg q ↔ flowIndex cfg' p = flowIndex cfg' q) := by decide
  have htables : cfg'.tables = cfg.tables := rfl
  exact (closings_hash htables hsame).1

end FlowClassifier
