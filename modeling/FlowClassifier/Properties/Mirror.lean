import FlowClassifier.Switch.Runs

/-!
# The two directions are mirror images

The code of the two directions is written twice.  Swapping the addresses of every packet exchanges
the directions of a run in which every conversation has one client, so the two copies agree when
the swapped run is the original one with its directions exchanged: in the registers at every step,
and in every report.

One thing in the program is not symmetric: the downlink is divided first and the uplink starts from
the scratch quotients this leaves.  It takes a division table without gaps, the same for both
directions, to make that invisible (`windowFeatures_flip`).
-/

namespace FlowClassifier

open Mealy

/-- The packet with its addresses swapped. -/
def Packet.mirror (p : Packet) : Packet :=
  { p with hdr := { p.hdr with
      ipv4 := { p.hdr.ipv4 with srcAddr := p.hdr.ipv4.dstAddr, dstAddr := p.hdr.ipv4.srcAddr } } }

@[simp] lemma Packet.isUdp_mirror (p : Packet) : p.mirror.IsUdp ↔ p.IsUdp := Iff.rfl

@[simp] lemma Packet.time_mirror (p : Packet) : p.mirror.time = p.time := rfl

@[simp] lemma Packet.siz_mirror (p : Packet) : p.mirror.siz = p.siz := rfl

/-- Exactly one endpoint of the packet is a client. -/
def Packet.OneClient (t : Tables) (p : Packet) : Prop := isClient t p.src ≠ isClient t p.dst

instance (t : Tables) (p : Packet) : Decidable (p.OneClient t) := by
  unfold Packet.OneClient
  infer_instance

lemma flowDir_mirror {t : Tables} {p : Packet} (h : p.OneClient t) :
    flowDir t p.mirror = (flowDir t p).flip := by
  have hsrc : p.mirror.src = p.dst := rfl
  unfold Packet.OneClient at h
  unfold flowDir
  rw [hsrc]
  cases hs : isClient t p.src <;> cases hd : isClient t p.dst <;> simp_all [Direction.flip]

/-- The hash is taken of the client's address first, so both halves of a conversation meet. -/
lemma flowIndex_mirror {cfg : Config} {p : Packet} (h : p.OneClient cfg.tables) :
    flowIndex cfg p.mirror = flowIndex cfg p := by
  unfold flowIndex
  rw [flowDir_mirror h]
  cases flowDir cfg.tables p <;> rfl

/-! ## Features of an exchanged window -/

/-- The same division entries for both directions, for every count a window can have. -/
structure Tables.DivisionsAgree (t : Tables) : Prop where
  same : t.divide .DW = t.divide .UP
  covers : ∀ n, 1 ≤ n → n ≤ 4095 → (rangeLookup (t.divide .DW) n).isSome = true

variable {t : Tables}

/-- A table without gaps never lets a previous division through. -/
lemma halfFeatures_divideHalf (ht : t.DivisionsAgree) (d e : Direction) (q q' : Division)
    (h : Half) :
    halfFeatures (divideHalf t d q h) h = halfFeatures (divideHalf t e q' h) h := by
  have hsame : t.divide d = t.divide e := by
    cases d <;> cases e <;> simp [ht.same]
  unfold halfFeatures divideHalf
  by_cases hn : h.nbelem > 0
  · have hlt := h.nbelem.isLt
    have hpos : 1 ≤ h.nbelem.toNat := hn
    have hsome := ht.covers h.nbelem.toNat hpos (by omega)
    have hdw : t.divide e = t.divide .DW := by
      cases e <;> simp [ht.same]
    simp only [if_pos hn, hsame, hdw]
    cases hlook : rangeLookup (t.divide .DW) h.nbelem.toNat with
    | none =>
        rw [hlook] at hsome
        exact absurd hsome (by simp)
    | some p => rfl
  · simp only [if_neg hn]

lemma windowFeatures_flip (ht : t.DivisionsAgree) (h : Direction → Half) (d : Direction) :
    windowFeatures t (fun e => h e.flip) d = windowFeatures t h d.flip := by
  cases d with
  | DW => exact halfFeatures_divideHalf ht ..
  | UP => exact halfFeatures_divideHalf ht ..

/-- A report with its directions exchanged, and classified again. -/
def mirrorReport (t : Tables) (r : Report) : Report where
  index := r.index
  features := fun d => r.features d.flip
  actionFt := featIndexes t fun d => r.features d.flip
  isCG := verdict t (featIndexes t fun d => r.features d.flip)

lemma windowReport_flip (ht : t.DivisionsAgree) (i : Fin 1024) (h : Direction → Half) :
    windowReport t i (fun e => h e.flip) = mirrorReport t (windowReport t i h) := by
  have hft : windowFeatures t (fun e => h e.flip) = fun d => windowFeatures t h d.flip := by
    funext d
    exact windowFeatures_flip ht h d
  unfold windowReport mirrorReport
  rw [hft]

/-! ## The simulation -/

/-- A cell of the run and the cell of the same index in the mirrored run. -/
structure Mirrored (c c' : Cell) : Prop where
  tracker : c.flowTracker = 0
  tracker' : c'.flowTracker = 0
  frst : c'.flowFrstTime = c.flowFrstTime
  half : ∀ d, c'.half d = c.half d.flip

lemma Mirrored.half_eq {c c' : Cell} (h : Mirrored c c') : c'.half = fun d => c.half d.flip :=
  funext h.half

lemma Mirrored.init {c c' : Cell} (h : Mirrored c c') (d : Direction) (siz : BitVec 32)
    (time : BitVec 48) : Mirrored (c.init d siz time) (c'.init d.flip siz time) where
  tracker := h.tracker
  tracker' := h.tracker'
  frst := rfl
  half e := by
    simp only [Cell.init, h.half, Direction.flip_flip]
    cases d <;> cases e <;> rfl

lemma Mirrored.update {c c' : Cell} (h : Mirrored c c') (d : Direction) (siz : BitVec 32)
    (time : BitVec 48) : Mirrored (c.update d siz time) (c'.update d.flip siz time) where
  tracker := h.tracker
  tracker' := h.tracker'
  frst := h.frst
  half e := by
    simp only [Cell.update, h.half, Direction.flip_flip]
    cases d <;> cases e <;> rfl

lemma Mirrored.close (ht : t.DivisionsAgree) {c c' : Cell} (h : Mirrored c c') (i : Fin 1024) :
    Mirrored (c.close t i) (c'.close t i) where
  tracker := h.tracker
  tracker' := h.tracker'
  frst := h.frst
  half d := by
    simp only [Cell.close, h.half_eq, windowFeatures_flip ht]

/-- One packet and its mirror image keep cells mirrored and emit mirrored reports. -/
lemma mirrored_packetStep {cfg : Config} (ht : cfg.tables.DivisionsAgree) {c c' : Cell}
    (h : Mirrored c c') {p : Packet} (hp : p.OneClient cfg.tables) :
    Mirrored (packetStep cfg c p).1 (packetStep cfg c' p.mirror).1 ∧
      (packetStep cfg c' p.mirror).2 =
        (packetStep cfg c p).2.map (mirrorReport cfg.tables) := by
  by_cases hudp : p.IsUdp
  · have hover : c'.WindowOver p.time ↔ c.WindowOver p.time := by
      unfold Cell.WindowOver
      rw [h.frst]
    rw [packetStep_of_isUdp cfg c hudp,
      packetStep_of_isUdp cfg c' (p.isUdp_mirror.2 hudp),
      cellStep_of_flowTracker cfg h.tracker, cellStep_of_flowTracker cfg h.tracker',
      flowDir_mirror hp, flowIndex_mirror hp, Packet.time_mirror, Packet.siz_mirror, h.frst]
    by_cases hw : c.WindowOver p.time
    · rw [if_pos hw, if_pos (hover.2 hw)]
      refine ⟨(h.close ht _).init _ _ _, ?_⟩
      simp only [Option.map_some, h.half_eq, windowReport_flip ht]
    · rw [if_neg hw, if_neg (mt hover.1 hw)]
      by_cases hi : c.flowFrstTime = 0
      · rw [if_pos hi, if_pos hi]
        exact ⟨h.init _ _ _, rfl⟩
      · rw [if_neg hi, if_neg hi]
        exact ⟨h.update _ _ _, rfl⟩
  · rw [packetStep_of_not_isUdp cfg c hudp,
      packetStep_of_not_isUdp cfg c' (mt p.isUdp_mirror.1 hudp)]
    exact ⟨h, rfl⟩

lemma mirrored_switchStep {cfg : Config} (ht : cfg.tables.DivisionsAgree) {regs regs' : Registers}
    (h : ∀ i, Mirrored (regs.cell i) (regs'.cell i)) {p : Packet} (hp : p.OneClient cfg.tables) :
    (∀ i, Mirrored ((switchStep cfg regs p).1.cell i) ((switchStep cfg regs' p.mirror).1.cell i)) ∧
      (switchStep cfg regs' p.mirror).2 =
        (switchStep cfg regs p).2.map (mirrorReport cfg.tables) := by
  have hrouted := switchStep_routed cfg
  obtain ⟨hcell, hout⟩ := mirrored_packetStep ht (h (flowIndex cfg p)) hp
  have hidx := flowIndex_mirror hp
  constructor
  · intro i
    by_cases hi : i = flowIndex cfg p
    · have hown' := hrouted.own regs' p.mirror
      rw [hidx] at hown'
      rw [hi, hrouted.own regs p, hown']
      exact hcell
    · rw [hrouted.other regs p i hi, hrouted.other regs' p.mirror i (by rwa [hidx])]
      exact h i
  · rw [hrouted.out regs p, hrouted.out regs' p.mirror, hidx]
    exact hout

/-! ## Runs -/

lemma Bank.ext_half {b b' : Bank} (h : ∀ i, b.half i = b'.half i) : b = b' := by
  have hnb : b.nbelem = b'.nbelem := funext fun i => congrArg Half.nbelem (h i)
  have hsum : b.sumSZE = b'.sumSZE := funext fun i => congrArg Half.sumSZE (h i)
  have hdlt : b.dltSZE = b'.dltSZE := funext fun i => congrArg Half.dltSZE (h i)
  have hmu : b.lstMuSZE = b'.lstMuSZE := funext fun i => congrArg Half.lstMuSZE (h i)
  have htst : b.flowTst = b'.flowTst := funext fun i => congrArg Half.flowTst (h i)
  have hiat : b.dltIAT = b'.dltIAT := funext fun i => congrArg Half.dltIAT (h i)
  have hmui : b.lstMuIAT = b'.lstMuIAT := funext fun i => congrArg Half.lstMuIAT (h i)
  obtain ⟨_, _, _, _, _, _, _⟩ := b
  obtain ⟨_, _, _, _, _, _, _⟩ := b'
  simp_all

/-- **Swapping the addresses of every packet exchanges the directions.**  The windows start at the
same times, each array of one direction is exchanged with its counterpart, and the reports are the
same ones, in the same order, with the features of the two directions exchanged. -/
theorem mirror_run (cfg : Config) (ht : cfg.tables.DivisionsAgree) (ps : List Packet)
    (hps : ∀ p ∈ ps, p.OneClient cfg.tables) :
    (switchRun cfg (ps.map Packet.mirror)).flowFrstTime = (switchRun cfg ps).flowFrstTime ∧
      (∀ d, (switchRun cfg (ps.map Packet.mirror)).bank d = (switchRun cfg ps).bank d.flip) ∧
      (reports (switchTrace cfg (ps.map Packet.mirror))).map (fun r => (r.index, r.features)) =
        (reports (switchTrace cfg ps)).map
          (fun r => (r.index, fun d => r.features d.flip)) := by
  have hzero : ∀ i, Mirrored (Registers.zero.cell i) (Registers.zero.cell i) :=
    fun i => ⟨rfl, rfl, rfl, fun _ => rfl⟩
  obtain ⟨hcell, htrace⟩ := Mealy.simulation
    (fun regs regs' : Registers => ∀ i, Mirrored (regs.cell i) (regs'.cell i)) Packet.mirror
    (Option.map (mirrorReport cfg.tables))
    (fun regs regs' p hp hR => mirrored_switchStep ht hR (hps p hp)) _ _ hzero
  refine ⟨?_, ?_, ?_⟩
  · funext i
    exact (hcell i).frst
  · intro d
    refine Bank.ext_half fun i => ?_
    exact (hcell i).half d
  · unfold reports switchTrace
    rw [htrace, List.filterMap_map, List.map_filterMap, List.map_filterMap]
    congr 1
    funext x
    simp only [Function.comp_apply, Option.map_map]
    rfl

/-- A download answered by one acknowledgement, and the packet that ends the window. -/
theorem mirror_run_download :
    let cfg : Config :=
      { hash := fun a _ => Fin.ofNat 1024 (a.toNat % 1024)
        tables := { Tables.empty with
          direc := [0xC0A8]
          divide := fun _ => [⟨1, 1, 4095, ⟨0, 255, 255⟩⟩] } }
    let ps := [udpPacket 0x0A000002 0xC0A80001 1400 1000, udpPacket 0x0A000002 0xC0A80001 1400 2000,
      udpPacket 0xC0A80001 0x0A000002 128 2500, udpPacket 0x0A000002 0xC0A80001 1400 40000]
    (switchRun cfg (ps.map Packet.mirror)).flowFrstTime = (switchRun cfg ps).flowFrstTime ∧
      (∀ d, (switchRun cfg (ps.map Packet.mirror)).bank d = (switchRun cfg ps).bank d.flip) ∧
      (reports (switchTrace cfg (ps.map Packet.mirror))).map (fun r => (r.index, r.features)) =
        (reports (switchTrace cfg ps)).map
          (fun r => (r.index, fun d => r.features d.flip)) :=
  mirror_run _
    ⟨rfl, fun n h1 h2 => by simp [rangeLookup, Table.winner, RangeEntry.hits, h1, h2]⟩ _ (by decide)

end FlowClassifier
