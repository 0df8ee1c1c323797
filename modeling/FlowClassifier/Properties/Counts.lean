import FlowClassifier.Properties.WindowedFold

/-!
# A busy window can be reported as empty

The packets of a window are counted in 12 bits, without a guard, and a count of zero stands for a
direction without packets: its features are zeros, and so are the means stored for the next window.
A direction with 4096 packets in one window is therefore taken for a silent one.

`countsReported_iff` says that a run is free of this exactly when every window it closes has at
most 4095 packets per direction, and a count without a row in the division tables is zero.
-/

namespace FlowClassifier

open Mealy Windows

/-- What the end of a window says of one direction, as it should: the number of its packets, zeros
if there were none, otherwise the quotients by that number, and the means stored for the next window
are those of the packets. -/
structure Counted (cfg : Config) (pre : List Packet) (p : Packet) (d : Direction) (r : Report) :
    Prop where
  count : (r.features d).nb.toNat = (openIn cfg (flowIndex cfg p) d pre).length
  silent : openIn cfg (flowIndex cfg p) d pre = [] →
    let stored := ((switchRun cfg (pre ++ [p])).cell (flowIndex cfg p)).half d
    r.features d = .zero ∧ stored.lstMuSZE = 0 ∧ stored.lstMuIAT = 0
  busy : openIn cfg (flowIndex cfg p) d pre ≠ [] →
    ∃ params, rangeLookup (cfg.tables.divide d) (openIn cfg (flowIndex cfg p) d pre).length =
        some params ∧
      let h := ((switchRun cfg pre).cell (flowIndex cfg p)).half d
      let stored := ((switchRun cfg (pre ++ [p])).cell (flowIndex cfg p)).half d
      let meanSZ := params.apply (BitVec.ofNat 32 (sizes (openIn cfg (flowIndex cfg p) d pre)))
      let meanIAT := params.apply winSze
      (r.features d).meanSZ = meanSZ ∧ (r.features d).stdSZ = params.apply h.dltSZE ∧
        (r.features d).meanIAT = meanIAT ∧ (r.features d).stdIAT = params.apply h.dltIAT ∧
        stored.lstMuSZE = meanSZ ∧ stored.lstMuIAT = meanIAT

/-- Every end of a window of a run is reported, with the counts of its packets. -/
def CountsReported (cfg : Config) (ps : List Packet) : Prop :=
  ∀ pre p post, ps = pre ++ p :: post → ClosesWindow cfg pre p →
    ∃ r, (process cfg (switchRun cfg pre) p).report = some r ∧ ∀ d, Counted cfg pre p d r

/-! ## The end of a window -/

section Run

variable {cfg : Config} {ps : List Packet} {p : Packet}

/-- The end of a window reports what the registers of the index hold, and stores the means. -/
lemma report_of_closesWindow (hudp : ∀ q ∈ ps ++ [p], q.IsUdp)
    (hpos : ∀ q ∈ ps ++ [p], q.time ≠ 0)
    (hmono : (ps ++ [p]).Pairwise fun q r => q.time ≤ r.time) (hclose : ClosesWindow cfg ps p) :
    let h := ((switchRun cfg ps).cell (flowIndex cfg p)).half
    (process cfg (switchRun cfg ps) p).report =
        some (windowReport cfg.tables (flowIndex cfg p) h) ∧
      ∀ d, (((switchRun cfg (ps ++ [p])).cell (flowIndex cfg p)).half d).lstMuSZE =
          (windowFeatures cfg.tables h d).meanSZ ∧
        (((switchRun cfg (ps ++ [p])).cell (flowIndex cfg p)).half d).lstMuIAT =
          (windowFeatures cfg.tables h d).meanIAT := by
  intro h
  have hp : p.IsUdp := hudp p (by simp)
  have hover := (windowOver_switchRun_iff hudp hpos hmono).2 hclose
  refine ⟨report_of_windowOver hp hover, fun d => ?_⟩
  obtain ⟨-, -, -, hcell⟩ := process_spec cfg (switchRun cfg ps) hp
  have hstep : (cellStep cfg ((switchRun cfg ps).cell (flowIndex cfg p)) p).1 =
      (((switchRun cfg ps).cell (flowIndex cfg p)).close cfg.tables (flowIndex cfg p)).init
        (flowDir cfg.tables p) p.siz p.time := by
    unfold cellStep
    simp only [if_pos hover]
  rw [switchRun_concat, hcell, if_pos rfl, hstep, half_init]
  split <;> exact ⟨rfl, rfl⟩

end Run

/-! ## Reported features -/

lemma windowFeatures_of_zero {t : Tables} {h : Direction → Half} {d : Direction}
    (hzero : (h d).nbelem = 0) (hsum : (h d).sumSZE = 0) : windowFeatures t h d = .zero := by
  have hnot : ¬ (0 : BitVec 12) > 0 := by decide
  cases d <;> simp only [windowFeatures, halfFeatures, hzero, if_neg hnot, hsum] <;> rfl

/-- Another count is divided by, whatever the other direction left in the scratch record. -/
lemma windowFeatures_of_lookup {t : Tables} {h : Direction → Half} {d : Direction}
    {params : PowParams} (hpos : (h d).nbelem > 0)
    (hlookup : rangeLookup (t.divide d) (h d).nbelem.toNat = some params) :
    windowFeatures t h d = halfFeatures (params.division (h d)) (h d) := by
  cases d <;> simp only [windowFeatures, divideHalf, if_pos hpos, hlookup]

section Run

variable {cfg : Config} {ps : List Packet} {p : Packet}

/-- **One end of a window.**  Up to 4095 packets in a direction are counted, and when the tables
have a row for the count the features are those of the packets counted. -/
lemma counted_of_le (hudp : ∀ q ∈ ps ++ [p], q.IsUdp) (hpos : ∀ q ∈ ps ++ [p], q.time ≠ 0)
    (hmono : (ps ++ [p]).Pairwise fun q r => q.time ≤ r.time) (hclose : ClosesWindow cfg ps p)
    {d : Direction} (hle : (openIn cfg (flowIndex cfg p) d ps).length ≤ 4095)
    (hrow : openIn cfg (flowIndex cfg p) d ps ≠ [] →
      (rangeLookup (cfg.tables.divide d) (openIn cfg (flowIndex cfg p) d ps).length).isSome) :
    Counted cfg ps p d (windowReport cfg.tables (flowIndex cfg p)
      ((switchRun cfg ps).cell (flowIndex cfg p)).half) := by
  obtain ⟨-, hstored⟩ := report_of_closesWindow hudp hpos hmono hclose
  obtain ⟨hSZE, hIAT⟩ := hstored d
  obtain ⟨hnb, hsum, -⟩ := half_switchRun_fields cfg (flowIndex cfg p) d
    (fun q hq => hudp q (List.mem_append_left _ hq))
    (fun q hq => hpos q (List.mem_append_left _ hq)) (List.pairwise_append.1 hmono).1
  have hcount : (((switchRun cfg ps).cell (flowIndex cfg p)).half d).nbelem.toNat =
      (openIn cfg (flowIndex cfg p) d ps).length := by
    rw [hnb, BitVec.toNat_ofNat]
    exact Nat.mod_eq_of_lt (by omega)
  refine ⟨?_, fun hnil => ?_, fun hne => ?_⟩
  · exact (congrArg BitVec.toNat (nb_windowFeatures ..).1).trans hcount
  · rw [hnil] at hnb hsum
    have hfeatures := windowFeatures_of_zero (t := cfg.tables) hnb hsum
    rw [hfeatures] at hSZE hIAT
    exact ⟨hfeatures, hSZE, hIAT⟩
  · obtain ⟨params, hlookup⟩ := Option.isSome_iff_exists.1 (hrow hne)
    have hpos' : (((switchRun cfg ps).cell (flowIndex cfg p)).half d).nbelem > 0 := by
      rw [gt_iff_lt, BitVec.lt_def, hcount]
      exact List.length_pos_of_ne_nil hne
    have hfeatures := windowFeatures_of_lookup hpos' (by rw [hcount]; exact hlookup)
    rw [hfeatures] at hSZE hIAT
    refine ⟨params, hlookup, ?_⟩
    simp only [halfFeatures, if_pos hpos', PowParams.division, hsum] at hSZE hIAT
    simp only [windowReport, hfeatures, halfFeatures, if_pos hpos', PowParams.division, hsum, hSZE,
      hIAT, and_self]

lemma Counted.length_le {d : Direction} {r : Report} (h : Counted cfg ps p d r) :
    (openIn cfg (flowIndex cfg p) d ps).length ≤ 4095 := by
  have hlt := (r.features d).nb.isLt
  rw [h.count] at hlt
  omega

end Run

/-- **The counts a run reports are right precisely when no window is too long for the counter** and
every count has a row in the division tables. -/
theorem countsReported_iff (cfg : Config) (ps : List Packet) (hudp : ∀ p ∈ ps, p.IsUdp)
    (hpos : ∀ p ∈ ps, p.time ≠ 0) (hmono : ps.Pairwise fun p q => p.time ≤ q.time) :
    CountsReported cfg ps ↔ ∀ pre p post, ps = pre ++ p :: post → ClosesWindow cfg pre p →
      ∀ d, (openIn cfg (flowIndex cfg p) d pre).length ≤ 4095 ∧
        (openIn cfg (flowIndex cfg p) d pre ≠ [] →
          (rangeLookup (cfg.tables.divide d)
            (openIn cfg (flowIndex cfg p) d pre).length).isSome) := by
  constructor
  · intro hreported pre p post heq hclose d
    obtain ⟨r, -, hcounted⟩ := hreported pre p post heq hclose
    refine ⟨(hcounted d).length_le, fun hne => ?_⟩
    obtain ⟨params, hlookup, -⟩ := (hcounted d).busy hne
    rw [hlookup]
    rfl
  · intro hfits pre p post heq hclose
    have heq' : ps = (pre ++ [p]) ++ post := by simp [heq]
    have hmem : ∀ q ∈ pre ++ [p], q ∈ ps := fun q hq => heq' ▸ List.mem_append_left post hq
    rw [heq'] at hmono
    have hudp' := fun q hq => hudp q (hmem q hq)
    have hpos' := fun q hq => hpos q (hmem q hq)
    have hmono' := (List.pairwise_append.1 hmono).1
    refine ⟨_, (report_of_closesWindow hudp' hpos' hmono' hclose).1, fun d => ?_⟩
    obtain ⟨hle, hrow⟩ := hfits pre p post heq hclose d
    exact counted_of_le hudp' hpos' hmono' hclose hle hrow

/-- A run of one window with a packet in each direction, closed by a third packet, with the rows of
`Out.csv` for up to two packets, is reported right. -/
theorem countsReported_iff_download :
    let cfg : Config :=
      { hash := fun a _ => Fin.ofNat 1024 (a.toNat % 1024)
        tables := { Tables.empty with
          direc := [0xC0A8]
          divide := fun _ => [⟨1, 1, 1, ⟨0, 255, 255⟩⟩, ⟨2, 2, 2, ⟨1, 255, 255⟩⟩] } }
    CountsReported cfg [udpPacket 0x0A000002 0xC0A80001 1400 1000,
      udpPacket 0xC0A80001 0x0A000002 128 2500, udpPacket 0x0A000002 0xC0A80001 1400 40000] := by
  intro cfg
  refine (countsReported_iff cfg _ ?_ (by decide) (by decide)).2 ?_
  · intro p hp
    simp only [List.mem_cons, List.not_mem_nil, or_false] at hp
    rcases hp with rfl | rfl | rfl <;> exact isUdp_udpPacket ..
  · intro pre p post heq _ d
    -- No window has more than the two packets before the last one.
    have hlen := congrArg List.length heq
    simp only [List.length_cons, List.length_nil, List.length_append] at hlen
    have hle := length_openIn_le cfg (flowIndex cfg p) d pre
    generalize openIn cfg (flowIndex cfg p) d pre = w at hle ⊢
    refine ⟨by omega, fun hne => ?_⟩
    have hpos := List.length_pos_of_ne_nil hne
    have htwo : w.length = 1 ∨ w.length = 2 := by omega
    rcases htwo with h | h <;> rw [h] <;> rfl

/-- 4096 packets of one direction within a microsecond are reported as none. -/
theorem not_countsReported_burst :
    let cfg : Config :=
      { hash := fun a _ => Fin.ofNat 1024 (a.toNat % 1024)
        tables := { Tables.empty with
          direc := [0xC0A8]
          divide := fun _ => [⟨1, 1, 1, ⟨0, 255, 255⟩⟩] } }
    let burst := List.replicate 4096 (udpPacket 0x0A000002 0xC0A80001 1400 1000)
    let last := udpPacket 0x0A000002 0xC0A80001 1400 40000
    (∀ p ∈ burst ++ [last],
        p.IsUdp ∧ p.time ≠ 0 ∧ p.conversation = s(0x0A000002, 0xC0A80001)) ∧
      ((burst ++ [last]).Pairwise fun p q => p.time ≤ q.time) ∧
      (∃ r, (process cfg (switchRun cfg burst) last).report = some r ∧ (r.features .DW).nb = 0) ∧
      ¬ CountsReported cfg (burst ++ [last]) := by
  intro cfg burst last
  have hmem : ∀ p ∈ burst ++ [last], p = udpPacket 0x0A000002 0xC0A80001 1400 1000 ∨ p = last := by
    intro p hp
    rcases List.mem_append.1 hp with hp | hp
    · exact Or.inl (List.eq_of_mem_replicate hp)
    · exact Or.inr (List.mem_singleton.1 hp)
  have hdomain : ∀ p ∈ burst ++ [last],
      p.IsUdp ∧ p.time ≠ 0 ∧ p.conversation = s(0x0A000002, 0xC0A80001) := by
    intro p hp
    rcases hmem p hp with rfl | rfl
    · exact ⟨isUdp_udpPacket .., by decide, rfl⟩
    · exact ⟨isUdp_udpPacket .., by decide, rfl⟩
  have hmono : (burst ++ [last]).Pairwise fun p q => p.time ≤ q.time := by
    refine List.pairwise_append.2 ⟨List.pairwise_replicate.2 (Or.inr (BitVec.le_refl _)),
      List.pairwise_singleton _ _, fun p hp q hq => ?_⟩
    rw [List.eq_of_mem_replicate hp, List.mem_singleton.1 hq]
    decide
  have hat : packetsAt cfg 1 burst = burst := by
    refine List.filter_eq_self.2 fun p hp => ?_
    rw [List.eq_of_mem_replicate hp]
    decide
  have hopen : (cut sameWindow (packetsAt cfg 1 burst)).openW = burst := by
    rw [hat, cut_replicate sameWindow (by decide)]
  have hin : openIn cfg 1 .DW burst = burst := by
    rw [openIn, hopen]
    refine List.filter_eq_self.2 fun p hp => ?_
    rw [List.eq_of_mem_replicate hp]
    decide
  have hidx : flowIndex cfg last = 1 := by decide
  have hclose : ClosesWindow cfg burst last := by
    refine ⟨udpPacket 0x0A000002 0xC0A80001 1400 1000,
      List.replicate 4095 (udpPacket 0x0A000002 0xC0A80001 1400 1000), ?_, by decide⟩
    rw [hidx, hopen]
    exact List.replicate_succ
  refine ⟨hdomain, hmono, ⟨_, (report_of_closesWindow (fun q hq => (hdomain q hq).1)
    (fun q hq => (hdomain q hq).2.1) hmono hclose).1, ?_⟩, fun hreported => ?_⟩
  · have hburst : ∀ q ∈ burst, q ∈ burst ++ [last] := fun q hq => List.mem_append_left _ hq
    have hnb := (half_switchRun_fields cfg 1 .DW (fun q hq => (hdomain q (hburst q hq)).1)
      (fun q hq => (hdomain q (hburst q hq)).2.1) (List.pairwise_append.1 hmono).1).1
    rw [hin, List.length_replicate] at hnb
    rw [windowReport, hidx, (nb_windowFeatures ..).1, hnb]
    rfl
  · obtain ⟨r, -, hcounted⟩ := hreported burst _ [] rfl hclose
    have hlen := (hcounted .DW).length_le
    rw [hidx, hin, List.length_replicate] at hlen
    omega

end FlowClassifier
