import FlowClassifier.Switch.Runs

/-!
# The clock may start anywhere

Timestamps are only ever subtracted from each other, modulo `2 ^ 48`, or compared with zero, the
value that stands for "none yet". So a run whose packets all arrive later by the same amount, with a
wrap of the clock in between if it comes to that, reports the same windows, as long as no packet
arrives at time zero on either clock (`reports_shift`).
-/

namespace FlowClassifier

open Mealy

/-- A packet on a clock that is ahead by `δ`. -/
def Packet.shift (δ : BitVec 48) (p : Packet) : Packet :=
  { p with std := { p.std with
    ingressGlobalTimestamp := p.std.ingressGlobalTimestamp + δ } }

/-- A stored time on that clock; zero still means that there is none. -/
def shiftTime (δ t : BitVec 48) : BitVec 48 := if t = 0 then 0 else t + δ

def Half.shift (δ : BitVec 48) (h : Half) : Half := { h with flowTst := shiftTime δ h.flowTst }

/-- The registers of an index on that clock. -/
def Cell.shift (δ : BitVec 48) (c : Cell) : Cell :=
  { c with
    flowFrstTime := shiftTime δ c.flowFrstTime
    half := fun d => (c.half d).shift δ }

/-- A time that is not zero on either clock. -/
def OnBothClocks (δ t : BitVec 48) : Prop := t ≠ 0 ∧ t + δ ≠ 0

instance (δ t : BitVec 48) : Decidable (OnBothClocks δ t) := by
  unfold OnBothClocks
  infer_instance

/-- The times stored at an index, where there are any, are not zero on either clock. -/
structure Cell.Shiftable (δ : BitVec 48) (c : Cell) : Prop where
  flowFrstTime : c.flowFrstTime ≠ 0 → OnBothClocks δ c.flowFrstTime
  flowTst : ∀ d, (c.half d).flowTst ≠ 0 → OnBothClocks δ (c.half d).flowTst

section Step

variable {δ t : BitVec 48}

lemma shiftTime_of_ne (ht : t ≠ 0) : shiftTime δ t = t + δ := if_neg ht

lemma shiftTime_eq_zero_iff (ht : t ≠ 0 → OnBothClocks δ t) : shiftTime δ t = 0 ↔ t = 0 := by
  unfold shiftTime
  split
  · rename_i h0
    exact iff_of_true rfl h0
  · rename_i h0
    exact iff_of_false (ht h0).2 h0

private lemma add_sub_add (s t δ : BitVec 48) : (t + δ) - (s + δ) = t - s := by bv_omega

lemma windowOver_shift {c : Cell} (hc : c.Shiftable δ) :
    (c.shift δ).WindowOver (t + δ) ↔ c.WindowOver t := by
  have hzero : (c.shift δ).flowFrstTime = 0 ↔ c.flowFrstTime = 0 :=
    shiftTime_eq_zero_iff hc.flowFrstTime
  unfold Cell.WindowOver
  rw [Ne, hzero]
  by_cases h0 : c.flowFrstTime = 0
  · simp [h0]
  · have htime : (c.shift δ).flowFrstTime = c.flowFrstTime + δ := shiftTime_of_ne h0
    rw [htime, add_sub_add]

lemma windowFeatures_shift (tables : Tables) (h : Direction → Half) :
    windowFeatures tables (fun d => (h d).shift δ) = windowFeatures tables h := by
  funext d
  cases d <;> rfl

lemma update_shift {h : Half} (hh : h.flowTst ≠ 0 → OnBothClocks δ h.flowTst)
    (ht : OnBothClocks δ t) (siz : BitVec 32) :
    (h.shift δ).update siz (t + δ) = (h.update siz t).shift δ := by
  have hiat : (if (h.shift δ).flowTst ≠ 0 then t + δ - (h.shift δ).flowTst else 0) =
      if h.flowTst ≠ 0 then t - h.flowTst else 0 := by
    have hzero : (h.shift δ).flowTst = 0 ↔ h.flowTst = 0 := shiftTime_eq_zero_iff hh
    by_cases h0 : h.flowTst = 0
    · rw [if_neg (not_not.2 (hzero.2 h0)), if_neg (not_not.2 h0)]
    · have htime : (h.shift δ).flowTst = h.flowTst + δ := shiftTime_of_ne h0
      rw [if_pos (fun hz => h0 (hzero.1 hz)), if_pos h0, htime, add_sub_add]
  unfold Half.update
  rw [hiat]
  simp only [Half.shift, shiftTime_of_ne ht.1]
  rfl

lemma init_shift (ht : OnBothClocks δ t) (siz : BitVec 32) (h : Half) :
    (h.shift δ).init siz (t + δ) = (h.init siz t).shift δ := by
  simp only [Half.init, Half.shift, shiftTime_of_ne ht.1]
  rfl

lemma clear_shift (h : Half) : (h.shift δ).clear = h.clear.shift δ := by
  simp [Half.clear, Half.shift, shiftTime]

lemma cell_init_shift (ht : OnBothClocks δ t) (d : Direction) (siz : BitVec 32) (c : Cell) :
    (c.shift δ).init d siz (t + δ) = (c.init d siz t).shift δ := by
  simp only [Cell.init, Cell.shift, shiftTime_of_ne ht.1, init_shift ht, clear_shift,
    Cell.mk.injEq, true_and, and_true]
  funext e
  split <;> rfl

lemma cell_update_shift {c : Cell} (hc : c.Shiftable δ) (ht : OnBothClocks δ t) (d : Direction)
    (siz : BitVec 32) : (c.shift δ).update d siz (t + δ) = (c.update d siz t).shift δ := by
  simp only [Cell.update, Cell.shift, update_shift (hc.flowTst d) ht, Cell.mk.injEq, true_and,
    and_true]
  funext e
  split <;> rfl

lemma cell_close_shift (tables : Tables) (i : Fin 1024) (c : Cell) :
    (c.shift δ).close tables i = (c.close tables i).shift δ := by
  have hfeatures : windowFeatures tables (c.shift δ).half = windowFeatures tables c.half :=
    windowFeatures_shift tables c.half
  simp only [Cell.close, hfeatures]
  rfl

/-- What a packet stores is a time of its own or one that was there. -/
lemma Cell.Shiftable.init {c : Cell} (ht : OnBothClocks δ t) (d : Direction) (siz : BitVec 32) :
    (c.init d siz t).Shiftable δ where
  flowFrstTime := fun _ => ht
  flowTst := by
    intro e
    by_cases he : e = d
    · simp only [Cell.init, he, if_true]
      exact fun _ => ht
    · simp only [Cell.init, he, if_false]
      exact fun h => absurd rfl h

lemma Cell.Shiftable.update {c : Cell} (hc : c.Shiftable δ) (ht : OnBothClocks δ t) (d : Direction)
    (siz : BitVec 32) : (c.update d siz t).Shiftable δ where
  flowFrstTime := hc.flowFrstTime
  flowTst := by
    intro e
    by_cases he : e = d
    · simp only [Cell.update, he, if_true]
      exact fun _ => ht
    · simp only [Cell.update, he, if_false]
      exact hc.flowTst e

/-- **One packet on both clocks.** -/
lemma packetStep_shift (cfg : Config) {c : Cell} (hc : c.Shiftable δ) {p : Packet}
    (hp : p.IsUdp → OnBothClocks δ p.time) :
    (packetStep cfg c p).1.Shiftable δ ∧
      packetStep cfg (c.shift δ) (p.shift δ) =
        ((packetStep cfg c p).1.shift δ, (packetStep cfg c p).2) := by
  by_cases hudp : p.IsUdp
  · have hudp' : (p.shift δ).IsUdp := hudp
    have ht := hp hudp
    have htime : (p.shift δ).time = p.time + δ := rfl
    have hzero : (c.shift δ).flowFrstTime = 0 ↔ c.flowFrstTime = 0 :=
      shiftTime_eq_zero_iff hc.flowFrstTime
    have hswap : (c.shift δ).swapSpace (p.shift δ).key = c.swapSpace p.key := rfl
    have hdir : flowDir cfg.tables (p.shift δ) = flowDir cfg.tables p := rfl
    have hindex : flowIndex cfg (p.shift δ) = flowIndex cfg p := rfl
    have hsiz : (p.shift δ).siz = p.siz := rfl
    have hreport : windowReport cfg.tables (flowIndex cfg p) (c.shift δ).half =
        windowReport cfg.tables (flowIndex cfg p) c.half := by
      have hfeatures : windowFeatures cfg.tables (c.shift δ).half =
          windowFeatures cfg.tables c.half := windowFeatures_shift cfg.tables c.half
      simp only [windowReport, hfeatures]
    rw [packetStep_of_isUdp cfg c hudp, packetStep_of_isUdp cfg _ hudp']
    unfold cellStep
    simp only [htime, hdir, hindex, hsiz, hswap, hzero, windowOver_shift hc, hreport,
      cell_close_shift, cell_init_shift ht, cell_update_shift hc ht]
    split
    · exact ⟨Cell.Shiftable.init ht _ _, rfl⟩
    · split
      · exact ⟨Cell.Shiftable.init ht _ _, rfl⟩
      · exact ⟨hc.update ht _ _, rfl⟩
  · have hudp' : ¬ (p.shift δ).IsUdp := hudp
    rw [packetStep_of_not_isUdp cfg c hudp, packetStep_of_not_isUdp cfg _ hudp']
    exact ⟨hc, rfl⟩

end Step

/-- **A run on both clocks**: packet by packet the same reports, and the registers with the times
moved. -/
lemma switchTrace_shift (cfg : Config) (δ : BitVec 48) {ps : List Packet}
    (htimes : ∀ p ∈ ps, p.IsUdp → OnBothClocks δ p.time) :
    (∀ i, (switchRun cfg (ps.map (Packet.shift δ))).cell i =
        ((switchRun cfg ps).cell i).shift δ) ∧
      switchTrace cfg (ps.map (Packet.shift δ)) =
        (switchTrace cfg ps).map fun x => (x.1.shift δ, x.2) := by
  have hstart : ∀ k k' : Fin 1024, k = k' →
      (Registers.zero.cell k).Shiftable δ ∧ Registers.zero.cell k' =
        (Registers.zero.cell k).shift δ := by
    rintro k _ rfl
    exact ⟨⟨fun h => absurd rfl h, fun d h => absurd rfl h⟩, rfl⟩
  obtain ⟨hrun, htrace⟩ := (switchStep_routed cfg).simulation (switchStep_routed cfg)
    (fun k k' => k = k') (fun c c' => c.Shiftable δ ∧ c' = c.shift δ) (Packet.shift δ)
    (fun _ r => r) ps (fun p _ => rfl) (fun p _ k k' hk => by rw [hk]; rfl)
    (fun c c' p hp hR => by
      obtain ⟨hc, rfl⟩ := hR
      obtain ⟨hnext, hstep⟩ := packetStep_shift cfg hc (htimes p hp)
      rw [hstep]
      exact ⟨⟨hnext, rfl⟩, rfl⟩)
    Registers.zero Registers.zero hstart
  exact ⟨fun i => (hrun i i rfl).2, htrace⟩

lemma reports_map_shift (δ : BitVec 48) (tr : List (Packet × Option Report)) :
    reports (tr.map fun x => (x.1.shift δ, x.2)) = reports tr := by
  rw [reports, List.filterMap_map]
  rfl

/-- **The clock may start anywhere.**  On a clock that is ahead by `δ` the switch reports the same
windows, and its registers hold the same values with the times moved. -/
theorem reports_shift (cfg : Config) (δ : BitVec 48) {ps : List Packet}
    (htimes : ∀ p ∈ ps, p.IsUdp → OnBothClocks δ p.time) :
    reports (switchTrace cfg (ps.map (Packet.shift δ))) = reports (switchTrace cfg ps) ∧
      ∀ i, (switchRun cfg (ps.map (Packet.shift δ))).cell i =
        ((switchRun cfg ps).cell i).shift δ := by
  obtain ⟨hrun, htrace⟩ := switchTrace_shift cfg δ htimes
  exact ⟨by rw [htrace, reports_map_shift], hrun⟩

/-- Two packets of one window and one that closes it, on a clock that wraps between them. -/
theorem reports_shift_wrap :
    let cfg : Config := ⟨fun _ _ => 0, { Tables.empty with direc := [0xC0A8] }⟩
    let ps := [udpPacket 0x0A000002 0xC0A80001 1400 1000,
      udpPacket 0x0A000002 0xC0A80001 1400 2000, udpPacket 0x0A000002 0xC0A80001 1400 40000]
    reports (switchTrace cfg (ps.map (Packet.shift (-1500)))) = reports (switchTrace cfg ps) := by
  intro cfg ps
  exact (reports_shift cfg (-1500) (by decide)).1

end FlowClassifier
