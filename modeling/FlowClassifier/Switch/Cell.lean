import Mathlib.Order.Fin.Basic
import FlowClassifier.Framework.Mealy
import FlowClassifier.Switch.Ingress

/-!
# The ingress control as a machine on one cell

A UDP packet reads and writes the register arrays at one index, the hash of its addresses in
client-server order.  This file says what it does there, as a machine `cellStep` on the values of
that index, and proves that the control is that machine routed by `flowIndex`
(`switchStep_routed`).  Everything later that is said about runs is said about `cellStep` first.

The scratch record is not part of a cell: it starts at zero for every packet.  What is left of it
within one packet is visible in `windowFeatures`, where the uplink division starts from what the
downlink division left.
-/

namespace FlowClassifier

/-! ## What the registers see of a packet -/

/-- A UDP packet the control accounts: valid IPv4, arrival `ttl > 0`, valid UDP. -/
def Packet.IsUdp (p : Packet) : Prop :=
  p.hdr.ipv4.isValid = true ∧ p.hdr.ipv4.ttl > 0 ∧ p.hdr.udp.isValid = true

instance (p : Packet) : Decidable p.IsUdp := by
  unfold Packet.IsUdp
  infer_instance

def Packet.src (p : Packet) : BitVec 32 := p.hdr.ipv4.srcAddr

def Packet.dst (p : Packet) : BitVec 32 := p.hdr.ipv4.dstAddr

def Packet.time (p : Packet) : BitVec 48 := p.std.ingressGlobalTimestamp

/-- The size the registers are charged with: the total length less 28, in 16 bits. -/
def Packet.siz (p : Packet) : BitVec 32 := (p.hdr.ipv4.totalLen - 28).setWidth 32

lemma payloadSize_eq_siz (p : Packet) : payloadSize p.hdr.ipv4 = p.siz := by
  have hsub : p.hdr.ipv4.totalLen - BitVec.ofNat 16 ipv4MinSizeInBytes -
      BitVec.ofNat 16 udpMinSizeInBytes = p.hdr.ipv4.totalLen - 28 := by
    unfold ipv4MinSizeInBytes udpMinSizeInBytes
    bv_omega
  rw [payloadSize, hsub, Packet.siz]

lemma toNat_siz_eq (p : Packet) :
    p.siz.toNat = (p.hdr.ipv4.totalLen.toNat + (65536 - 28)) % 65536 := by
  have hlt := p.hdr.ipv4.totalLen.isLt
  have hmin : (28 : BitVec 16).toNat = 28 := rfl
  simp only [Packet.siz, BitVec.toNat_setWidth, BitVec.toNat_sub, hmin]
  omega

/-- Is an address in a client prefix? -/
def isClient (t : Tables) (addr : BitVec 32) : Bool := t.direc.contains (srcPrefix addr)

/-- The direction of a packet, decided by its source address alone. -/
def flowDir (t : Tables) (p : Packet) : Direction := if isClient t p.src then .UP else .DW

/-- The register index of a packet. -/
def flowIndex (cfg : Config) (p : Packet) : Fin 1024 :=
  match flowDir cfg.tables p with
  | .UP => cfg.hash p.src p.dst
  | .DW => cfg.hash p.dst p.src

/-- The key a packet carries. -/
def Packet.key (p : Packet) : BitVec 64 := p.src ++ p.dst

/-! ## Transitions of one direction -/

namespace Half

/-- A packet of this direction inside the window. -/
def update (siz : BitVec 32) (t : BitVec 48) (h : Half) : Half :=
  let iat := if h.flowTst ≠ 0 then t - h.flowTst else 0
  { h with
    nbelem := h.nbelem + 1
    sumSZE := h.sumSZE + siz
    dltSZE :=
      if h.lstMuSZE ≠ 0 then h.dltSZE + (siz - h.lstMuSZE) * (siz - h.lstMuSZE) else 0
    flowTst := t
    dltIAT :=
      if h.lstMuIAT ≠ 0 ∧ iat ≠ 0 then h.dltIAT + (iat - h.lstMuIAT) * (iat - h.lstMuIAT)
      else 0 }

/-- A packet of this direction opens a window. -/
def init (siz : BitVec 32) (t : BitVec 48) (h : Half) : Half :=
  { h with
    nbelem := 1
    sumSZE := siz
    dltSZE := if h.lstMuSZE ≠ 0 then (siz - h.lstMuSZE) * (siz - h.lstMuSZE) else 0
    flowTst := t
    dltIAT := 0 }

/-- A packet of the opposite direction opens a window. -/
def clear (h : Half) : Half :=
  { h with nbelem := 0, sumSZE := 0, dltSZE := 0, flowTst := 0, dltIAT := 0 }

/-- The means of a closed window replace the last ones. -/
def setLastMeans (ft : Features) (h : Half) : Half :=
  { h with lstMuSZE := ft.meanSZ, lstMuIAT := ft.meanIAT }

end Half

/-! ## The end of a window -/

/-- The four quotients of one direction's accumulators. -/
def PowParams.division (p : PowParams) (h : Half) : Division where
  mMeanSZ := p.apply h.sumSZE
  mStdSZ := p.apply h.dltSZE
  mMeanIAT := p.apply winSze
  mStdIAT := p.apply h.dltIAT

/-- The scratch quotients after the division table of one direction was applied to a non-zero
count. -/
def divideHalf (t : Tables) (d : Direction) (scratch : Division) (h : Half) : Division :=
  if h.nbelem > 0 then
    match rangeLookup (t.divide d) h.nbelem.toNat with
    | some p => p.division h
    | none => scratch
  else scratch

/-- The features of one direction, given the scratch quotients. -/
def halfFeatures (q : Division) (h : Half) : Features :=
  if h.nbelem > 0 then
    ⟨q.mMeanSZ, q.mStdSZ, q.mMeanIAT, q.mStdIAT, h.sumSZE, h.nbelem⟩
  else ⟨0, 0, 0, 0, h.sumSZE, h.nbelem⟩

/-- The twelve features of a window. -/
def windowFeatures (t : Tables) (h : Direction → Half) : Direction → Features
  | .DW => halfFeatures (divideHalf t .DW .zero (h .DW)) (h .DW)
  | .UP => halfFeatures (divideHalf t .UP (divideHalf t .DW .zero (h .DW)) (h .UP)) (h .UP)

/-- The count and the sum are reported as they are. -/
lemma nb_windowFeatures (t : Tables) (h : Direction → Half) (d : Direction) :
    (windowFeatures t h d).nb = (h d).nbelem ∧ (windowFeatures t h d).sum = (h d).sumSZE := by
  cases d <;> simp only [windowFeatures, halfFeatures] <;> split <;> exact ⟨rfl, rfl⟩

/-- The twelve feature indexes; zero is left where a table misses. -/
def featIndexes (t : Tables) (ft : Direction → Features) (f : Fin 12) : BitVec 6 :=
  (rangeLookup (t.feat f) (featKey ft f)).getD 0

/-- The verdict of `ActRules` on feature indexes; zero is left where it misses. -/
def verdict (t : Tables) (actionFt : Fin 12 → BitVec 6) : BitVec 1 :=
  ((Table.winner ActEntry.priority (ActEntry.hits fun f => (actionFt f).toNat)
    t.actRules).map ActEntry.cg).getD 0

/-- The report of a window. -/
def windowReport (t : Tables) (i : Fin 1024) (h : Direction → Half) : Report where
  index := i
  features := windowFeatures t h
  actionFt := featIndexes t (windowFeatures t h)
  isCG := verdict t (featIndexes t (windowFeatures t h))

/-! ## The cell machine -/

namespace Cell

/-- `mSwapSpace` for a cell and a carried key. -/
def swapSpace (key : BitVec 64) (c : Cell) : BitVec 64 :=
  (c.flowTracker - key) * c.flowTracker

/-- The end-of-window test. -/
def WindowOver (t : BitVec 48) (c : Cell) : Prop :=
  c.flowFrstTime ≠ 0 ∧ t - c.flowFrstTime > winSze

instance (t : BitVec 48) (c : Cell) : Decidable (c.WindowOver t) := by
  unfold WindowOver
  infer_instance

/-- A packet updates the open window of its cell. -/
def update (d : Direction) (siz : BitVec 32) (t : BitVec 48) (c : Cell) : Cell :=
  { c with half := fun e => if e = d then (c.half d).update siz t else c.half e }

/-- A packet opens a window at its cell. -/
def init (d : Direction) (siz : BitVec 32) (t : BitVec 48) (c : Cell) : Cell :=
  { c with
    flowFrstTime := t
    half := fun e => if e = d then (c.half d).init siz t else (c.half e).clear }

/-- The window of a cell is closed: its means are kept, and the debug arrays hold the last values
written to them. -/
def close (t : Tables) (i : Fin 1024) (c : Cell) : Cell :=
  { c with
    half := fun e => (c.half e).setLastMeans (windowFeatures t c.half e)
    debug :=
      { write12Bits := (windowFeatures t c.half .UP).nb
        write32Bits := BitVec.ofNat 32 i
        write48Bits := (windowFeatures t c.half .UP).stdIAT
        write1Bit := verdict t (featIndexes t (windowFeatures t c.half)) } }

end Cell

/-- What a UDP packet does to its cell, and the report it emits. -/
def cellStep (cfg : Config) (c : Cell) (p : Packet) : Cell × Option Report :=
  let d := flowDir cfg.tables p
  let i := flowIndex cfg p
  if c.WindowOver p.time then
    ((c.close cfg.tables i).init d p.siz p.time, some (windowReport cfg.tables i c.half))
  else if c.swapSpace p.key ≠ 0 ∨ c.flowFrstTime = 0 then (c.init d p.siz p.time, none)
  else (c.update d p.siz p.time, none)

/-! ## The control refines the cell machine -/

section Actions

variable (t : Tables) (d : Direction) (s : State)

/-- The accumulators of one direction at the packet's index. -/
private def accHalf : Half := (s.regs.bank d).half s.trackMeta.mIndex

lemma computeFeatures_eq :
    computeFeatures t d s =
      { s with
        trackMeta := { s.trackMeta with
          mNbElemInTable := (accHalf d s).nbelem
          mSumSzeInTable := (accHalf d s).sumSZE
          mSumSzeDltInTable := (accHalf d s).dltSZE
          mSumIatDltInTable := (accHalf d s).dltIAT
          division := divideHalf t d s.trackMeta.division (accHalf d s)
          features := fun e =>
            if e = d then halfFeatures (divideHalf t d s.trackMeta.division (accHalf d s))
              (accHalf d s)
            else s.trackMeta.features e } } := by
  have hread : (s.regs.bank d).nbelem.read s.trackMeta.mIndex = (accHalf d s).nbelem := rfl
  by_cases hn : (accHalf d s).nbelem > 0
  · simp only [computeFeatures, retrieve, setFeatures, hread, if_pos hn, divide, divideHalf,
      halfFeatures]
    cases rangeLookup (t.divide d) (accHalf d s).nbelem.toNat <;>
    · simp only [pow, if_true]
      congr 2
      funext e
      split <;> rfl
  · simp only [computeFeatures, retrieve, setFeatures, hread, if_neg hn, divideHalf, halfFeatures]
    rfl

/-- The state with other feature indexes. -/
def State.setActionFt (s : State) (a : Fin 12 → BitVec 6) : State :=
  { s with trackMeta := { s.trackMeta with actionFt := a } }

@[simp] lemma State.actionFt_setActionFt (a : Fin 12 → BitVec 6) :
    (s.setActionFt a).trackMeta.actionFt = a := rfl

@[simp] lemma State.features_setActionFt (a : Fin 12 → BitVec 6) :
    (s.setActionFt a).trackMeta.features = s.trackMeta.features := rfl

@[simp] lemma State.setActionFt_setActionFt (a b : Fin 12 → BitVec 6) :
    (s.setActionFt a).setActionFt b = s.setActionFt b := rfl

lemma featRuls_eq (f : Fin 12) :
    featRuls t f s = s.setActionFt fun g =>
      if g = f then
        (rangeLookup (t.feat f) (featKey s.trackMeta.features f)).getD (s.trackMeta.actionFt f)
      else s.trackMeta.actionFt g := by
  unfold featRuls
  cases rangeLookup (t.feat f) (featKey s.trackMeta.features f) with
  | none =>
      have hsame : (fun g => if g = f then s.trackMeta.actionFt f else s.trackMeta.actionFt g) =
          s.trackMeta.actionFt := by
        funext g
        split
        · rename_i hg
          rw [hg]
        · rfl
      simp only [Option.getD_none, hsame]
      rfl
  | some index => rfl

/-- The feature tables in any order that names each at most once. -/
private lemma foldl_featRuls (l : List (Fin 12)) (hl : l.Nodup) :
    l.foldl (fun s f => featRuls t f s) s = s.setActionFt fun g =>
      if g ∈ l then
        (rangeLookup (t.feat g) (featKey s.trackMeta.features g)).getD (s.trackMeta.actionFt g)
      else s.trackMeta.actionFt g := by
  induction l generalizing s with
  | nil => rfl
  | cons f l ih =>
      obtain ⟨hf, hl⟩ := List.nodup_cons.1 hl
      rw [List.foldl_cons, ih _ hl, featRuls_eq, State.setActionFt_setActionFt]
      congr 1
      funext g
      by_cases hg : g = f
      · subst hg
        simp [hf]
      · simp [hg]

/-- The thirteen tables of the classification. -/
lemma classify_eq_actRules :
    classify t s = actRules t (s.setActionFt fun g =>
      (rangeLookup (t.feat g) (featKey s.trackMeta.features g)).getD (s.trackMeta.actionFt g)) := by
  have hfold : classify t s =
      actRules t ((List.finRange 12).foldl (fun s f => featRuls t f s) s) := rfl
  rw [hfold, foldl_featRuls t s _ (List.nodup_finRange 12)]
  simp only [List.mem_finRange, if_true]

/-- The classification, on a scratch record no table has written yet. -/
lemma classify_eq (hft : s.trackMeta.actionFt = fun _ => 0) (hcg : s.trackMeta.isCG = 0) :
    classify t s =
      { s.setActionFt (featIndexes t s.trackMeta.features) with
        trackMeta := { (s.setActionFt (featIndexes t s.trackMeta.features)).trackMeta with
          isCG := verdict t (featIndexes t s.trackMeta.features) } } := by
  have hidx : classify t s = actRules t (s.setActionFt (featIndexes t s.trackMeta.features)) := by
    rw [classify_eq_actRules, hft]
    rfl
  rw [hidx]
  unfold actRules verdict
  rw [State.actionFt_setActionFt]
  cases Table.winner ActEntry.priority
      (ActEntry.hits fun f => (featIndexes t s.trackMeta.features f).toNat) t.actRules with
  | none =>
      simp only [Option.map_none, Option.getD_none, ← hcg]
      rfl
  | some e => rfl

lemma cell_writeFeatures (j : Fin 1024) :
    (writeFeatures d s).regs.cell j =
      if j = s.trackMeta.mIndex then
        { s.regs.cell j with
          debug := { (s.regs.cell j).debug with
            write12Bits := (s.trackMeta.features d).nb
            write32Bits := (s.trackMeta.features d).sum
            write48Bits := (s.trackMeta.features d).stdIAT } }
      else s.regs.cell j := by
  split <;> rename_i hj <;>
    simp [writeFeatures, write12Bits, write32Bits, write48Bits, Registers.cell,
      Register.read_write, hj]

lemma cell_writeLastMeans (j : Fin 1024) :
    (writeLastMeans d s).regs.cell j =
      if j = s.trackMeta.mIndex then
        { s.regs.cell j with
          half := fun e =>
            if e = d then ((s.regs.cell j).half d).setLastMeans (s.trackMeta.features d)
            else (s.regs.cell j).half e }
      else s.regs.cell j := by
  ext1
  · split <;> rfl
  · split <;> rfl
  · funext e
    by_cases hj : j = s.trackMeta.mIndex <;> by_cases he : e = d <;>
      simp [writeLastMeans, Registers.cell, Registers.setBank, Bank.half, Half.setLastMeans,
        Register.read_write, hj, he]
  · split <;> rfl

@[simp] lemma trackMeta_writeFeatures : (writeFeatures d s).trackMeta = s.trackMeta := by
  simp only [writeFeatures, write12Bits, write32Bits, write48Bits]

@[simp] lemma bank_writeFeatures : (writeFeatures d s).regs.bank = s.regs.bank := by
  simp only [writeFeatures, write12Bits, write32Bits, write48Bits]

@[simp] lemma trackMeta_writeLastMeans : (writeLastMeans d s).trackMeta = s.trackMeta := rfl

@[simp] lemma regs_computeFeatures : (computeFeatures t d s).regs = s.regs := by
  rw [computeFeatures_eq]

/-- The end of a window up to the classification: both directions' features, their debug writes
and their last means. -/
private def closeBoth (t : Tables) (s : State) : State :=
  let s := computeFeatures t .DW s
  let s := writeLastMeans .DW (writeFeatures .DW s)
  let s := computeFeatures t .UP s
  writeLastMeans .UP (writeFeatures .UP s)

/-- The uplink block reads what the packet found, since the downlink block wrote its own bank
only; but its scratch quotients are those the downlink division left. -/
private lemma features_closeBoth (hdiv : s.trackMeta.division = .zero) :
    (closeBoth t s).trackMeta.features =
      windowFeatures t (s.regs.cell s.trackMeta.mIndex).half := by
  have hacc : ∀ u : State, u.regs.bank .UP = s.regs.bank .UP →
      u.trackMeta.mIndex = s.trackMeta.mIndex → accHalf .UP u = accHalf .UP s := by
    intro u hb hi
    unfold accHalf
    rw [hb, hi]
  funext e
  unfold closeBoth
  simp only [trackMeta_writeLastMeans, trackMeta_writeFeatures]
  rw [computeFeatures_eq, hacc]
  · simp only [trackMeta_writeLastMeans, trackMeta_writeFeatures, computeFeatures_eq, hdiv]
    cases e <;> rfl
  · simp [writeLastMeans, Registers.setBank]
  · rw [trackMeta_writeLastMeans, trackMeta_writeFeatures, computeFeatures_eq]

private lemma trackMeta_closeBoth :
    ((closeBoth t s).trackMeta.mIndex = s.trackMeta.mIndex ∧
      (closeBoth t s).trackMeta.mEndWin = s.trackMeta.mEndWin ∧
      (closeBoth t s).trackMeta.mSwapSpace = s.trackMeta.mSwapSpace) ∧
      (closeBoth t s).trackMeta.actionFt = s.trackMeta.actionFt ∧
      (closeBoth t s).trackMeta.isCG = s.trackMeta.isCG := by
  simp [closeBoth, computeFeatures_eq]

private lemma cell_closeBoth (hdiv : s.trackMeta.division = .zero) (j : Fin 1024) :
    (closeBoth t s).regs.cell j =
      if j = s.trackMeta.mIndex then
        { s.regs.cell j with
          half := fun e => ((s.regs.cell j).half e).setLastMeans
            (windowFeatures t (s.regs.cell j).half e)
          debug := { (s.regs.cell j).debug with
            write12Bits := (windowFeatures t (s.regs.cell j).half .UP).nb
            write32Bits := (windowFeatures t (s.regs.cell j).half .UP).sum
            write48Bits := (windowFeatures t (s.regs.cell j).half .UP).stdIAT } }
      else s.regs.cell j := by
  have hft := features_closeBoth t s hdiv
  have hdw : (computeFeatures t .DW s).trackMeta.features .DW =
      windowFeatures t (s.regs.cell s.trackMeta.mIndex).half .DW := by
    rw [computeFeatures_eq, hdiv]
    rfl
  have hidx : ∀ d u, (computeFeatures t d u).trackMeta.mIndex = u.trackMeta.mIndex := by
    intro d u
    rw [computeFeatures_eq]
  unfold closeBoth at hft ⊢
  simp only [trackMeta_writeLastMeans, trackMeta_writeFeatures] at hft
  simp only [cell_writeLastMeans, cell_writeFeatures, trackMeta_writeLastMeans,
    trackMeta_writeFeatures, hidx, regs_computeFeatures, hft, hdw]
  by_cases hj : j = s.trackMeta.mIndex
  · subst hj
    simp only [if_true]
    congr 1
    funext e
    cases e <;> rfl
  · simp only [hj, if_false]

/-- The end of a window: the report's fields, and what is left at the packet's index. -/
lemma endWindow_spec (hdiv : s.trackMeta.division = .zero)
    (hact : s.trackMeta.actionFt = fun _ => 0) (hcg : s.trackMeta.isCG = 0) :
    (endWindow t s).trackMeta.mEndWin = s.trackMeta.mEndWin ∧
      (endWindow t s).trackMeta.mSwapSpace = s.trackMeta.mSwapSpace ∧
      (endWindow t s).trackMeta.mIndex = s.trackMeta.mIndex ∧
      (endWindow t s).trackMeta.features =
        windowFeatures t (s.regs.cell s.trackMeta.mIndex).half ∧
      (endWindow t s).trackMeta.actionFt =
        featIndexes t (windowFeatures t (s.regs.cell s.trackMeta.mIndex).half) ∧
      (endWindow t s).trackMeta.isCG =
        verdict t (featIndexes t (windowFeatures t (s.regs.cell s.trackMeta.mIndex).half)) ∧
      (∀ j, (endWindow t s).regs.cell j =
        if j = s.trackMeta.mIndex then (s.regs.cell j).close t j else s.regs.cell j) ∧
      (endWindow t s).hdr = s.hdr ∧ (endWindow t s).arrivalTime = s.arrivalTime ∧
      (endWindow t s).up = s.up := by
  obtain ⟨⟨hi, he, hs⟩, ha, hc⟩ := trackMeta_closeBoth t s
  have hft := features_closeBoth t s hdiv
  have hcell := cell_closeBoth t s hdiv
  have hrest : (closeBoth t s).hdr = s.hdr ∧ (closeBoth t s).arrivalTime = s.arrivalTime ∧
      (closeBoth t s).up = s.up := by
    simp [closeBoth, computeFeatures_eq, writeFeatures, writeLastMeans, write12Bits, write32Bits,
      write48Bits]
  have heq : endWindow t s = write1Bit
      (classify t (write32Bits (BitVec.ofNat 32 (closeBoth t s).trackMeta.mIndex)
        (closeBoth t s))).trackMeta.isCG
      (classify t (write32Bits (BitVec.ofNat 32 (closeBoth t s).trackMeta.mIndex)
        (closeBoth t s))) := rfl
  rw [heq]
  generalize closeBoth t s = u at *
  rw [classify_eq t (write32Bits (BitVec.ofNat 32 u.trackMeta.mIndex) u) (ha.trans hact)
    (hc.trans hcg)]
  have hu : (write32Bits (BitVec.ofNat 32 u.trackMeta.mIndex) u).trackMeta = u.trackMeta := by
    simp only [write32Bits]
  rw [hu, hft]
  refine ⟨he, hs, hi, hft, rfl, rfl, fun j => ?_, hrest⟩
  have hj := hcell j
  by_cases hji : j = s.trackMeta.mIndex
  · subst hji
    simp only [if_true] at hj ⊢
    simp only [Registers.cell, Cell.mk.injEq, Debug.mk.injEq] at hj
    obtain ⟨h1, h2, h3, h4, h5, h6, h7⟩ := hj
    simp [Registers.cell, Cell.close, write1Bit, write32Bits, State.setActionFt, hi, h1, h2, h3,
      h4, h6]
  · simp only [hji, if_false] at hj ⊢
    rw [← hj]
    simp [Registers.cell, write1Bit, write32Bits, State.setActionFt, Register.read_write, hi, hji]

lemma cell_update (j : Fin 1024) :
    (update d s).regs.cell j =
      if j = s.trackMeta.mIndex then
        (s.regs.cell j).update d (payloadSize s.hdr.ipv4) s.std.ingressGlobalTimestamp
      else s.regs.cell j := by
  ext1
  · split <;> rfl
  · split <;> rfl
  · funext e
    by_cases hj : j = s.trackMeta.mIndex <;> by_cases he : e = d <;>
      simp [update, Cell.update, Half.update, Registers.cell, Registers.setBank, Bank.half,
        Register.read_write, hj, he]
  · split <;> rfl

lemma cell_init (j : Fin 1024) :
    (init d s).regs.cell j =
      if j = s.trackMeta.mIndex then
        { (s.regs.cell j).init d (payloadSize s.hdr.ipv4) s.arrivalTime with
          flowFrstTime := (s.regs.cell j).flowFrstTime }
      else s.regs.cell j := by
  ext1
  · split <;> rfl
  · split <;> rfl
  · funext e
    by_cases hj : j = s.trackMeta.mIndex <;> rcases Direction.eq_or_eq_flip d e with rfl | rfl <;>
      simp [init, Cell.init, Half.init, Half.clear, Registers.cell, Registers.setBank, Bank.half,
        Register.read_write, hj]
  · split <;> rfl

lemma cell_genHash (cfg : Config) (a b : BitVec 32) (j : Fin 1024) :
    (genHash cfg a b s).regs.cell j =
      if j = cfg.hash a b then
        { s.regs.cell j with
          flowFrstTime := (genHash cfg a b s).regs.flowFrstTime.read j }
      else s.regs.cell j := by
  split
  · rfl
  · rename_i hj
    simp [genHash, Registers.cell, Register.read_write, hj]

/-- Forwarding rewrites the Ethernet addresses, the `ttl` and the egress port, and nothing the
flow registers depend on. -/
lemma ipv4Forwarding_spec :
    (ipv4Forwarding t s).regs = s.regs ∧ (ipv4Forwarding t s).trackMeta = s.trackMeta ∧
      (ipv4Forwarding t s).up = s.up ∧ (ipv4Forwarding t s).hdr.udp = s.hdr.udp ∧
      (ipv4Forwarding t s).hdr.ipv4.srcAddr = s.hdr.ipv4.srcAddr ∧
      (ipv4Forwarding t s).hdr.ipv4.dstAddr = s.hdr.ipv4.dstAddr ∧
      payloadSize (ipv4Forwarding t s).hdr.ipv4 = payloadSize s.hdr.ipv4 ∧
      (ipv4Forwarding t s).std.ingressGlobalTimestamp = s.std.ingressGlobalTimestamp := by
  unfold ipv4Forwarding ipv4Lpm
  split
  · split
    · simp
    · split <;> simp [ipv4Forward, drop, payloadSize]
  · simp

end Actions

/-- The state in which the control has computed the hash and is about to choose its branch: the
headers are forwarded, the scratch record holds what `gen_hash` puts there, and the start of the
window is already rewritten at the packet's index. -/
private structure Hashed (cfg : Config) (regs : Registers) (p : Packet) (s : State) : Prop where
  trackMeta : s.trackMeta =
    { TrackMeta.zero with
      mIndex := flowIndex cfg p
      mKeyCarried := p.key
      mKeyInTable := (regs.cell (flowIndex cfg p)).flowTracker
      mFrstTimeInTable := (regs.cell (flowIndex cfg p)).flowFrstTime
      mSwapSpace := (regs.cell (flowIndex cfg p)).swapSpace p.key
      mEndWin := if (regs.cell (flowIndex cfg p)).WindowOver p.time then 1 else 0 }
  up : s.up = decide (flowDir cfg.tables p = .UP)
  size : payloadSize s.hdr.ipv4 = p.siz
  arrivalTime : s.arrivalTime = p.time
  timestamp : s.std.ingressGlobalTimestamp = p.time
  cell : ∀ j, s.regs.cell j =
    if j = flowIndex cfg p then
      { regs.cell j with
        flowFrstTime :=
          if (regs.cell j).swapSpace p.key = 0 ∧ ¬ (regs.cell j).WindowOver p.time ∧
              (regs.cell j).flowFrstTime ≠ 0 then (regs.cell j).flowFrstTime
          else p.time }
    else regs.cell j

/-- The branch after the hash. -/
private def branch (cfg : Config) (s : State) : State :=
  if s.trackMeta.mEndWin = 1 ∨ s.trackMeta.mSwapSpace ≠ 0 ∨ s.trackMeta.mFrstTimeInTable = 0 then
    let s := if s.trackMeta.mEndWin = 1 then endWindow cfg.tables s else s
    if s.up then initUP s else initDOWN s
  else if s.up then updateUP s else updateDOWN s

/-- `gen_hash` on the packet's addresses, in the order its direction asks for. -/
private lemma hashed_genHash (cfg : Config) (regs : Registers) (p : Packet) {a b : BitVec 32}
    {s : State} (hidx : cfg.hash a b = flowIndex cfg p) (hregs : s.regs = regs)
    (hmeta : s.trackMeta = TrackMeta.zero) (hup : s.up = decide (flowDir cfg.tables p = .UP))
    (hsrc : s.hdr.ipv4.srcAddr = p.src) (hdst : s.hdr.ipv4.dstAddr = p.dst)
    (hsiz : payloadSize s.hdr.ipv4 = p.siz) (htime : s.std.ingressGlobalTimestamp = p.time) :
    Hashed cfg regs p (genHash cfg a b s) where
  trackMeta := by
    simp only [genHash, hidx, hregs, hmeta, hsrc, hdst, htime]
    rfl
  up := hup
  size := hsiz
  arrivalTime := htime
  timestamp := htime
  cell := by
    intro j
    rw [cell_genHash, hidx, hregs]
    split
    · rename_i hj
      subst hj
      simp only [genHash, hidx, hregs, hsrc, hdst, htime, Register.read_write_self]
      by_cases hw : (regs.cell (flowIndex cfg p)).WindowOver p.time
      · have hw' : regs.flowFrstTime.read (flowIndex cfg p) ≠ 0 ∧
            p.time - regs.flowFrstTime.read (flowIndex cfg p) > winSze := hw
        have hbit : ¬ ((1 : BitVec 1) = 0) := by decide
        simp only [if_pos hw', hbit, hw, not_true, false_and, and_false, if_false]
      · have hw' : ¬ (regs.flowFrstTime.read (flowIndex cfg p) ≠ 0 ∧
            p.time - regs.flowFrstTime.read (flowIndex cfg p) > winSze) := hw
        simp only [if_neg hw', hw, not_false_iff, true_and]
        rfl
    · rfl

private lemma process_eq_branch (cfg : Config) (regs : Registers) {p : Packet} (h : p.IsUdp) :
    ∃ s, Hashed cfg regs p s ∧ process cfg regs p = branch cfg s := by
  obtain ⟨hv, httl, hudp⟩ := h
  let s₁ := direc cfg.tables (ipv4Forwarding cfg.tables (State.start regs p))
  let s₂ := if s₁.up then genHash cfg s₁.hdr.ipv4.srcAddr s₁.hdr.ipv4.dstAddr s₁
    else genHash cfg s₁.hdr.ipv4.dstAddr s₁.hdr.ipv4.srcAddr s₁
  obtain ⟨hregs, hmeta, hup, hudp', hsrc, hdst, hpayload, htime⟩ :=
    ipv4Forwarding_spec cfg.tables (State.start regs p)
  have hsiz := hpayload.trans (payloadSize_eq_siz p)
  refine ⟨s₂, ?_, ?_⟩
  · cases hc : isClient cfg.tables p.src with
    | true =>
        have hd : flowDir cfg.tables p = .UP := by simp [flowDir, hc]
        have hs₁ : s₁ = srcCLT (ipv4Forwarding cfg.tables (State.start regs p)) := by
          refine if_pos ?_
          rw [hsrc]
          exact hc
        have hs₂ : s₂ = genHash cfg s₁.hdr.ipv4.srcAddr s₁.hdr.ipv4.dstAddr s₁ :=
          if_pos (by rw [hs₁]; rfl)
        rw [hs₂, hs₁]
        refine hashed_genHash cfg regs p ?_ hregs hmeta ?_ hsrc hdst hsiz htime
        · simp only [srcCLT, hsrc, hdst, flowIndex, hd]
          rfl
        · simp [srcCLT, hd]
    | false =>
        have hd : flowDir cfg.tables p = .DW := by simp [flowDir, hc]
        have hs₁ : s₁ = ipv4Forwarding cfg.tables (State.start regs p) := by
          refine if_neg ?_
          rw [hsrc]
          exact Bool.eq_false_iff.1 hc
        have hs₂ : s₂ = genHash cfg s₁.hdr.ipv4.dstAddr s₁.hdr.ipv4.srcAddr s₁ :=
          if_neg (by rw [hs₁, hup]; exact Bool.false_ne_true)
        rw [hs₂, hs₁]
        refine hashed_genHash cfg regs p ?_ hregs hmeta ?_ hsrc hdst hsiz htime
        · simp only [hsrc, hdst, flowIndex, hd]
          rfl
        · rw [hup]
          simp [State.start, hd]
  · have hvalid : (ipv4Forwarding cfg.tables (State.start regs p)).hdr.udp.isValid = true := by
      rw [hudp']
      exact hudp
    unfold process ingress
    rw [if_pos ⟨hv, httl⟩]
    exact if_pos hvalid

section Branches

variable {cfg : Config} {regs : Registers} {p : Packet} {s : State}

private lemma Hashed.mIndex (hs : Hashed cfg regs p s) : s.trackMeta.mIndex = flowIndex cfg p := by
  rw [hs.trackMeta]

private lemma Hashed.mEndWin (hs : Hashed cfg regs p s) :
    s.trackMeta.mEndWin = if (regs.cell (flowIndex cfg p)).WindowOver p.time then 1 else 0 := by
  rw [hs.trackMeta]

/-- The two names of an action are one definition at the packet's direction. -/
private lemma ite_up (g : Direction → State → State) (u : State) :
    (if u.up then g .UP u else g .DW u) = g (if u.up then .UP else .DW) u := by
  cases u.up <;> rfl

private lemma Hashed.dir (hs : Hashed cfg regs p s) :
    (if s.up then Direction.UP else .DW) = flowDir cfg.tables p := by
  rw [hs.up]
  cases flowDir cfg.tables p <;> rfl

/-- The branch, with the tests read off the cell. -/
private lemma Hashed.branch_eq (hs : Hashed cfg regs p s) :
    branch cfg s =
      let c := regs.cell (flowIndex cfg p)
      if c.WindowOver p.time then init (flowDir cfg.tables p) (endWindow cfg.tables s)
      else if c.swapSpace p.key ≠ 0 ∨ c.flowFrstTime = 0 then init (flowDir cfg.tables p) s
      else update (flowDir cfg.tables p) s := by
  have hswap : s.trackMeta.mSwapSpace = (regs.cell (flowIndex cfg p)).swapSpace p.key := by
    rw [hs.trackMeta]
  have hfrst : s.trackMeta.mFrstTimeInTable = (regs.cell (flowIndex cfg p)).flowFrstTime := by
    rw [hs.trackMeta]
  have hbit : ¬ ((0 : BitVec 1) = 1) := by decide
  have hinit : ∀ u : State, (if u.up then initUP u else initDOWN u) =
      init (if u.up then .UP else .DW) u := ite_up init
  have hupdate : ∀ u : State, (if u.up then updateUP u else updateDOWN u) =
      update (if u.up then .UP else .DW) u := ite_up update
  unfold branch
  simp only [hinit, hupdate, hs.mEndWin, hswap, hfrst, hs.dir]
  by_cases hw : (regs.cell (flowIndex cfg p)).WindowOver p.time
  · obtain ⟨-, -, -, -, -, -, -, -, -, hup⟩ :=
      endWindow_spec cfg.tables s (by rw [hs.trackMeta]; rfl) (by rw [hs.trackMeta]; rfl)
        (by rw [hs.trackMeta]; rfl)
    simp only [hw, if_true, true_or, hup, hs.dir]
  · simp only [hw, hbit, if_false, false_or, hs.dir]

/-- The branch at the end of a window: classify, then open a new one. -/
private lemma Hashed.over (hs : Hashed cfg regs p s)
    (hw : (regs.cell (flowIndex cfg p)).WindowOver p.time) :
    let u := init (flowDir cfg.tables p) (endWindow cfg.tables s)
    u.trackMeta.mIndex = flowIndex cfg p ∧ u.trackMeta.mSwapSpace = s.trackMeta.mSwapSpace ∧
      u.report =
        some (windowReport cfg.tables (flowIndex cfg p) (regs.cell (flowIndex cfg p)).half) ∧
      ∀ j, u.regs.cell j =
        if j = flowIndex cfg p then
          ((regs.cell j).close cfg.tables j).init (flowDir cfg.tables p) p.siz p.time
        else regs.cell j := by
  obtain ⟨he, hs', hi, hft, hact, hcg, hcell, hhdr, harr, -⟩ :=
    endWindow_spec cfg.tables s (by rw [hs.trackMeta]; rfl) (by rw [hs.trackMeta]; rfl)
      (by rw [hs.trackMeta]; rfl)
  have hidx := hs.mIndex
  have hhalf : (s.regs.cell (flowIndex cfg p)).half = (regs.cell (flowIndex cfg p)).half := by
    rw [hs.cell, if_pos rfl]
  rw [hidx, hhalf] at hft hact hcg
  have hu : (endWindow cfg.tables s).trackMeta.mEndWin = 1 := by rw [he, hs.mEndWin, if_pos hw]
  generalize endWindow cfg.tables s = v at *
  refine ⟨hi.trans hidx, hs', ?_, fun j => ?_⟩
  · have hrep : (init (flowDir cfg.tables p) v).report = v.report := rfl
    rw [hrep, State.report, if_pos hu, hi, hidx, hft, hact, hcg]
    rfl
  · rw [cell_init, hi, hidx, hcell, hidx, hs.cell, hhdr, harr, hs.size, hs.arrivalTime]
    by_cases hj : j = flowIndex cfg p
    · subst hj
      simp only [if_true, hw, not_true, false_and, and_false, if_false]
      rfl
    · simp only [hj, if_false]

/-- The branch of a first packet or a collision: open a window. -/
private lemma Hashed.opens (hs : Hashed cfg regs p s)
    (hi : (regs.cell (flowIndex cfg p)).swapSpace p.key ≠ 0 ∨
      (regs.cell (flowIndex cfg p)).flowFrstTime = 0) (j : Fin 1024) :
    (init (flowDir cfg.tables p) s).regs.cell j =
      if j = flowIndex cfg p then (regs.cell j).init (flowDir cfg.tables p) p.siz p.time
      else regs.cell j := by
  have hcond : ¬ ((regs.cell (flowIndex cfg p)).swapSpace p.key = 0 ∧
      ¬ (regs.cell (flowIndex cfg p)).WindowOver p.time ∧
      (regs.cell (flowIndex cfg p)).flowFrstTime ≠ 0) := by tauto
  rw [cell_init, hs.mIndex, hs.cell, hs.size, hs.arrivalTime]
  by_cases hj : j = flowIndex cfg p
  · subst hj
    simp only [if_true, if_neg hcond]
    rfl
  · simp only [hj, if_false]

/-- The branch inside a window: the window goes on. -/
private lemma Hashed.joins (hs : Hashed cfg regs p s)
    (hw : ¬ (regs.cell (flowIndex cfg p)).WindowOver p.time)
    (hi : ¬ ((regs.cell (flowIndex cfg p)).swapSpace p.key ≠ 0 ∨
      (regs.cell (flowIndex cfg p)).flowFrstTime = 0)) (j : Fin 1024) :
    (update (flowDir cfg.tables p) s).regs.cell j =
      if j = flowIndex cfg p then (regs.cell j).update (flowDir cfg.tables p) p.siz p.time
      else regs.cell j := by
  have hcond : (regs.cell (flowIndex cfg p)).swapSpace p.key = 0 ∧
      ¬ (regs.cell (flowIndex cfg p)).WindowOver p.time ∧
      (regs.cell (flowIndex cfg p)).flowFrstTime ≠ 0 := by tauto
  rw [cell_update, hs.mIndex, hs.cell, hs.size, hs.timestamp]
  by_cases hj : j = flowIndex cfg p
  · subst hj
    simp only [if_true, if_pos hcond]
  · simp only [hj, if_false]

end Branches

/-- **The control on one UDP packet.**  It touches its own index only, where it does what
`cellStep` does, and its report is that of `cellStep`; the scratch record shows the index and the
collision test. -/
theorem process_spec (cfg : Config) (regs : Registers) {p : Packet} (h : p.IsUdp) :
    (process cfg regs p).trackMeta.mIndex = flowIndex cfg p ∧
      (process cfg regs p).trackMeta.mSwapSpace =
        (regs.cell (flowIndex cfg p)).swapSpace p.key ∧
      (process cfg regs p).report = (cellStep cfg (regs.cell (flowIndex cfg p)) p).2 ∧
      ∀ j, (process cfg regs p).regs.cell j =
        if j = flowIndex cfg p then (cellStep cfg (regs.cell (flowIndex cfg p)) p).1
        else regs.cell j := by
  obtain ⟨s, hs, heq⟩ := process_eq_branch cfg regs h
  rw [heq, hs.branch_eq]
  have hswap : s.trackMeta.mSwapSpace = (regs.cell (flowIndex cfg p)).swapSpace p.key := by
    rw [hs.trackMeta]
  have hbit : ¬ ((0 : BitVec 1) = 1) := by decide
  unfold cellStep
  by_cases hw : (regs.cell (flowIndex cfg p)).WindowOver p.time
  · obtain ⟨hidx, hswap', hrep, hcell⟩ := hs.over hw
    simp only [if_pos hw]
    refine ⟨hidx, hswap'.trans hswap, hrep, fun j => (hcell j).trans ?_⟩
    split <;> simp_all
  · have hnone : ∀ u : State, u.trackMeta.mEndWin = s.trackMeta.mEndWin → u.report = none := by
      intro u hu
      rw [State.report, hu, hs.mEndWin, if_neg hw, if_neg hbit]
    by_cases hi : (regs.cell (flowIndex cfg p)).swapSpace p.key ≠ 0 ∨
        (regs.cell (flowIndex cfg p)).flowFrstTime = 0
    · simp only [if_neg hw, if_pos hi]
      refine ⟨hs.mIndex, hswap, hnone _ rfl, fun j => (hs.opens hi j).trans ?_⟩
      split <;> simp_all
    · simp only [if_neg hw, if_neg hi]
      refine ⟨hs.mIndex, hswap, hnone _ rfl, fun j => (hs.joins hw hi j).trans ?_⟩
      split <;> simp_all

/-- The locals of `updateDOWN` and `updateUP` about times, on a packet that joins the open window:
what they read, and the inter-arrival time and the deviation they compute. -/
theorem process_of_joins (cfg : Config) (regs : Registers) {p : Packet} (h : p.IsUdp)
    (hw : ¬ (regs.cell (flowIndex cfg p)).WindowOver p.time)
    (hi : ¬ ((regs.cell (flowIndex cfg p)).swapSpace p.key ≠ 0 ∨
      (regs.cell (flowIndex cfg p)).flowFrstTime = 0)) :
    let c := (regs.cell (flowIndex cfg p)).half (flowDir cfg.tables p)
    (process cfg regs p).interArrivalTime =
        (if c.flowTst ≠ 0 then p.time - c.flowTst else 0) ∧
      (process cfg regs p).trackMeta.mLstMuIat = c.lstMuIAT ∧
      (process cfg regs p).trackMeta.mSumIatDltInTable = c.dltIAT ∧
      (process cfg regs p).sumIatDlt = (c.update p.siz p.time).dltIAT := by
  intro c
  obtain ⟨s, hs, heq⟩ := process_eq_branch cfg regs h
  have hjoins : branch cfg s = update (flowDir cfg.tables p) s := by
    rw [hs.branch_eq]
    simp only [if_neg hw, if_neg hi]
  have hhalf : (s.regs.bank (flowDir cfg.tables p)).half s.trackMeta.mIndex = c := by
    have hcell : (s.regs.cell (flowIndex cfg p)).half = (regs.cell (flowIndex cfg p)).half := by
      rw [hs.cell, if_pos rfl]
    rw [hs.mIndex]
    exact congrFun hcell _
  rw [heq, hjoins, ← hhalf, ← hs.timestamp]
  exact ⟨rfl, rfl, rfl, rfl⟩

/-- The size the four accumulating actions use, whichever of them a packet runs. -/
theorem siz_process (cfg : Config) (regs : Registers) {p : Packet} (h : p.IsUdp) :
    (process cfg regs p).siz = p.siz := by
  obtain ⟨s, hs, heq⟩ := process_eq_branch cfg regs h
  rw [heq, hs.branch_eq]
  by_cases hw : (regs.cell (flowIndex cfg p)).WindowOver p.time
  · obtain ⟨-, -, -, -, -, -, -, hhdr, -⟩ :=
      endWindow_spec cfg.tables s (by rw [hs.trackMeta]; rfl) (by rw [hs.trackMeta]; rfl)
        (by rw [hs.trackMeta]; rfl)
    simp only [if_pos hw]
    show payloadSize (endWindow cfg.tables s).hdr.ipv4 = p.siz
    rw [hhdr, hs.size]
  · simp only [if_neg hw]
    split
    · exact hs.size
    · exact hs.size

/-- A packet the control does not account leaves the registers alone and emits no report. -/
theorem process_of_not_isUdp (cfg : Config) (regs : Registers) {p : Packet} (h : ¬ p.IsUdp) :
    (process cfg regs p).regs = regs ∧ (process cfg regs p).report = none := by
  have hbit : ¬ ((0 : BitVec 1) = 1) := by decide
  have hnone : ∀ s : State, s.trackMeta = TrackMeta.zero → s.report = none := by
    intro s hs
    rw [State.report, hs]
    exact if_neg hbit
  unfold process ingress
  by_cases hip : (State.start regs p).hdr.ipv4.isValid ∧ (State.start regs p).hdr.ipv4.ttl > 0
  · obtain ⟨hregs, hmeta, -, hudp, -⟩ := ipv4Forwarding_spec cfg.tables (State.start regs p)
    have hvalid : ¬ (ipv4Forwarding cfg.tables (State.start regs p)).hdr.udp.isValid = true := by
      rw [hudp]
      exact fun hu => h ⟨hip.1, hip.2, hu⟩
    rw [if_pos hip]
    simp only [hvalid, Bool.false_eq_true, if_false]
    exact ⟨hregs, hnone _ hmeta⟩
  · rw [if_neg hip]
    exact ⟨rfl, hnone _ rfl⟩

/-- What any packet does to the cell of its addresses. -/
def packetStep (cfg : Config) (c : Cell) (p : Packet) : Cell × Option Report :=
  if p.IsUdp then cellStep cfg c p else (c, none)

lemma packetStep_of_isUdp (cfg : Config) (c : Cell) {p : Packet} (h : p.IsUdp) :
    packetStep cfg c p = cellStep cfg c p := if_pos h

lemma packetStep_of_not_isUdp (cfg : Config) (c : Cell) {p : Packet} (h : ¬ p.IsUdp) :
    packetStep cfg c p = (c, none) := if_neg h

/-- **The switch is a routed machine.**  Registers are cells, a packet is routed to its flow
index, and there it does what `packetStep` does. -/
theorem switchStep_routed (cfg : Config) :
    Mealy.Routed (switchStep cfg) Registers.cell (flowIndex cfg) (packetStep cfg) where
  own regs p := by
    by_cases h : p.IsUdp
    · obtain ⟨-, -, -, hcell⟩ := process_spec cfg regs h
      rw [packetStep_of_isUdp cfg _ h, switchStep, hcell, if_pos rfl]
    · rw [packetStep_of_not_isUdp cfg _ h, switchStep, (process_of_not_isUdp cfg regs h).1]
  other regs p j hj := by
    by_cases h : p.IsUdp
    · obtain ⟨-, -, -, hcell⟩ := process_spec cfg regs h
      rw [switchStep, hcell, if_neg hj]
    · rw [switchStep, (process_of_not_isUdp cfg regs h).1]
  out regs p := by
    by_cases h : p.IsUdp
    · rw [packetStep_of_isUdp cfg _ h]
      exact (process_spec cfg regs h).2.2.1
    · rw [packetStep_of_not_isUdp cfg _ h]
      exact (process_of_not_isUdp cfg regs h).2

end FlowClassifier
