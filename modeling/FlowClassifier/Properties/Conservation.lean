import Mathlib.Algebra.BigOperators.Group.List.Basic
import Mathlib.Data.BitVec
import FlowClassifier.Switch.Runs

/-!
# No packet is lost

Whatever shares an index and however the clock runs, every UDP packet is counted in exactly one
window: at every index and for each direction, the packets of all reports so far and those in the
registers add up to the packets that came, and so do their sizes (`conservation`). Both are the same
argument about a `Counter`, something that grows by an amount with every packet of its direction, is
reported when a window closes and starts again from the packet that closed it.

The equations are modular like the registers, and need that no packet arrives at time zero: such a
packet opens a window that the next one silently opens again.
-/

namespace FlowClassifier

open Mealy

/-! ## Counters -/

/-- A quantity that the registers of a direction accumulate in a window, and its report. -/
structure Counter (α : Type) [AddCommMonoid α] where
  ofHalf : Half → α
  ofFeatures : Features → α
  ofSiz : BitVec 32 → α
  zero : ofHalf .zero = 0
  update : ∀ siz t h, ofHalf (Half.update siz t h) = ofHalf h + ofSiz siz
  init : ∀ siz t h, ofHalf (Half.init siz t h) = ofSiz siz
  clear : ∀ h, ofHalf (Half.clear h) = 0
  report : ∀ q h, ofFeatures (halfFeatures q h) = ofHalf h

/-- The packets of a direction. -/
def packetCounter : Counter (BitVec 12) where
  ofHalf := Half.nbelem
  ofFeatures := Features.nb
  ofSiz := fun _ => 1
  zero := rfl
  update := fun _ _ _ => rfl
  init := fun _ _ _ => rfl
  clear := fun _ => rfl
  report := by
    intro q h
    unfold halfFeatures
    split <;> rfl

/-- Their sizes. -/
def sizeCounter : Counter (BitVec 32) where
  ofHalf := Half.sumSZE
  ofFeatures := Features.sum
  ofSiz := id
  zero := rfl
  update := fun _ _ _ => rfl
  init := fun _ _ _ => rfl
  clear := fun _ => rfl
  report := by
    intro q h
    unfold halfFeatures
    split <;> rfl

/-! ## One index -/

section Index

variable {α : Type} [AddCommMonoid α] (K : Counter α) (cfg : Config) (d : Direction)

/-- What the reports of a trace say of one direction, added up. -/
def Counter.reported (tr : List (Packet × Option Report)) : α :=
  ((reports tr).map fun r => K.ofFeatures (r.features d)).sum

/-- What the packets of one direction amount to. -/
def Counter.arrived (ps : List Packet) : α :=
  ((ps.filter fun p => p.IsUdp ∧ flowDir cfg.tables p = d).map fun p => K.ofSiz p.siz).sum

lemma Counter.reported_concat (tr : List (Packet × Option Report)) (p : Packet)
    (out : Option Report) :
    K.reported d (tr ++ [(p, out)]) =
      K.reported d tr + ((out.map fun r => K.ofFeatures (r.features d)).getD 0) := by
  cases out <;> simp [Counter.reported, reports]

lemma Counter.arrived_concat (ps : List Packet) (p : Packet) :
    K.arrived cfg d (ps ++ [p]) =
      K.arrived cfg d ps + if p.IsUdp ∧ flowDir cfg.tables p = d then K.ofSiz p.siz else 0 := by
  unfold Counter.arrived
  rw [List.filter_append, List.map_append, List.sum_append]
  congr 1
  by_cases h : p.IsUdp ∧ flowDir cfg.tables p = d
  · simp [h]
  · rw [if_neg h, List.filter_cons_of_neg (by simpa using h)]
    rfl

lemma Counter.ofFeatures_windowFeatures (t : Tables) (h : Direction → Half) :
    K.ofFeatures (windowFeatures t h d) = K.ofHalf (h d) := by
  cases d <;> exact K.report _ _

lemma Counter.ofHalf_init (e : Direction) (siz : BitVec 32) (t : BitVec 48) (c : Cell) :
    K.ofHalf ((c.init e siz t).half d) = if e = d then K.ofSiz siz else 0 := by
  by_cases h : d = e
  · rw [if_pos h.symm, h]
    simp [Cell.init, K.init]
  · rw [if_neg (Ne.symm h)]
    simp [Cell.init, h, K.clear]

lemma Counter.ofHalf_update (e : Direction) (siz : BitVec 32) (t : BitVec 48) (c : Cell) :
    K.ofHalf ((c.update e siz t).half d) =
      K.ofHalf (c.half d) + if e = d then K.ofSiz siz else 0 := by
  by_cases h : d = e
  · rw [if_pos h.symm, h]
    simp [Cell.update, K.update]
  · rw [if_neg (Ne.symm h)]
    simp [Cell.update, h]

/-- **The packets of one index.**  Reported and open together are what arrived; an index without a
window holds nothing. -/
lemma Counter.conserved {ps : List Packet} (htimes : ∀ p ∈ ps, p.IsUdp → p.time ≠ 0) :
    K.reported d (trace (packetStep cfg) Cell.zero ps) + K.ofHalf ((cellRun cfg ps).half d) =
        K.arrived cfg d ps ∧
      ((cellRun cfg ps).flowFrstTime = 0 → K.ofHalf ((cellRun cfg ps).half d) = 0) := by
  induction ps using List.reverseRecOn with
  | nil =>
      have hzero : K.ofHalf ((cellRun cfg []).half d) = 0 := K.zero
      rw [hzero]
      exact ⟨add_zero _, fun _ => rfl⟩
  | append_singleton ps p ih =>
      obtain ⟨hsum, hempty⟩ := ih fun q hq => htimes q (List.mem_append_left _ hq)
      have htime := htimes p (List.mem_append_right _ (List.mem_singleton_self p))
      rw [trace_concat, K.reported_concat, K.arrived_concat, cellRun_concat, ← hsum]
      change _ + ((packetStep cfg (cellRun cfg ps) p).2.map _).getD 0 + _ = _ ∧ _
      by_cases hp : p.IsUdp
      · have hstep := cellStep_of_flowTracker cfg (flowTracker_cellRun cfg ps) p
        rw [packetStep_of_isUdp cfg _ hp, hstep]
        simp only [hp, true_and]
        split
        · -- the window is reported, and the packet opens the next one
          refine ⟨?_, fun h => absurd h (htime hp)⟩
          simp only [Option.map_some, Option.getD_some, windowReport,
            K.ofFeatures_windowFeatures, K.ofHalf_init]
        · split
          · rename_i hfrst
            refine ⟨?_, fun h => absurd h (htime hp)⟩
            simp only [Option.map_none, Option.getD_none, add_zero, K.ofHalf_init, hempty hfrst]
          · rename_i hfrst
            refine ⟨?_, fun h => absurd h hfrst⟩
            simp only [Option.map_none, Option.getD_none, add_zero, K.ofHalf_update, add_assoc]
      · rw [packetStep_of_not_isUdp cfg _ hp]
        simp only [hp, false_and, if_false, Option.map_none, Option.getD_none, add_zero]
        exact ⟨trivial, hempty⟩

end Index

/-! ## Runs -/

/-- **No packet is lost or counted twice.**  At every index and in each direction, what the reports
say and what the registers hold add up to the packets that came, in number and in size. -/
theorem conservation (cfg : Config) {ps : List Packet}
    (htimes : ∀ p ∈ ps, p.IsUdp → p.time ≠ 0) (i : Fin 1024) (d : Direction) :
    let rs := reportsAt i (switchTrace cfg ps)
    let own := (packetsAt cfg i ps).filter fun p => p.IsUdp ∧ flowDir cfg.tables p = d
    let h := ((switchRun cfg ps).cell i).half d
    (rs.map fun r => (r.features d).nb).sum + h.nbelem = BitVec.ofNat 12 own.length ∧
      (rs.map fun r => (r.features d).sum).sum + h.sumSZE = (own.map Packet.siz).sum := by
  intro rs own h
  have htimes' : ∀ p ∈ packetsAt cfg i ps, p.IsUdp → p.time ≠ 0 :=
    fun p hp => htimes p (mem_packetsAt.1 hp).1
  have hrs : rs = _ := reportsAt_trace cfg Registers.zero ps i
  have hh : h = (cellRun cfg (packetsAt cfg i ps)).half d := by rw [← cell_switchRun]
  obtain ⟨hnb, -⟩ := packetCounter.conserved cfg d htimes'
  obtain ⟨hsum, -⟩ := sizeCounter.conserved cfg d htimes'
  rw [hrs, hh]
  refine ⟨hnb.trans ?_, hsum⟩
  have hones (l : List Packet) :
      (l.map fun _ => (1 : BitVec 12)).sum = BitVec.ofNat 12 l.length := by
    rw [List.map_const', List.sum_replicate, nsmul_one]
    rfl
  exact hones own

/-- Two clients that share an index: the second window's packet closes the first one's window. -/
theorem conservation_shared_index :
    let cfg : Config := ⟨fun _ _ => 5, { Tables.empty with direc := [0xC0A8] }⟩
    let ps := [udpPacket 0x0A000002 0xC0A80001 1400 1000,
      udpPacket 0xC0A80001 0x0A000002 90 1500, udpPacket 0x0A000003 0xC0A80002 700 40000]
    let rs := reportsAt 5 (switchTrace cfg ps)
    let own := (packetsAt cfg 5 ps).filter fun p => p.IsUdp ∧ flowDir cfg.tables p = .DW
    let h := ((switchRun cfg ps).cell 5).half .DW
    (rs.map fun r => (r.features .DW).nb).sum + h.nbelem = BitVec.ofNat 12 own.length ∧
      (rs.map fun r => (r.features .DW).sum).sum + h.sumSZE = (own.map Packet.siz).sum := by
  intro cfg ps
  exact conservation cfg (by decide) 5 .DW

end FlowClassifier
