import FlowClassifier.Switch.Registers
import FlowClassifier.Switch.Tables

/-!
# The ingress control

`basic_tutorial_ingress` of `My.p4`, action by action and in the order of its `apply` block, with
the control `ipv4_forwarding` it calls.  The state threaded through the actions is the packet's
headers and standard metadata, the registers, the scratch record and the control's local
variables; it also collects the values written to the four debug arrays, in order, because a log
reader sees them one by one.

The program writes most actions twice, once per direction.  Each pair is one definition with the
direction as parameter, and keeps its two names: `updateDOWN` and `updateUP` are `update .DW` and
`update .UP`, and likewise for `init`, `retrieve` and the feature tables.
-/

namespace FlowClassifier

/-- `WIN_SZE`: 33 ms in microseconds. -/
def winSze : BitVec 48 := 33000

/-- `CPU_PORT`. -/
def cpuPort : BitVec 9 := 255

/-- One write to a debug array. -/
inductive DebugWrite
  | bits12 (i : Fin 1024) (v : BitVec 12)
  | bits32 (i : Fin 1024) (v : BitVec 32)
  | bits48 (i : Fin 1024) (v : BitVec 48)
  | bit1 (i : Fin 1024) (v : BitVec 1)
  deriving DecidableEq

/-- The state of one execution of the control. -/
structure State where
  hdr : Headers
  std : StandardMetadata
  regs : Registers
  trackMeta : TrackMeta
  siz : BitVec 32
  arrivalTime : BitVec 48
  nbElem : BitVec 12
  sumSze : BitVec 32
  sumSzeDlt : BitVec 32
  sumIatDlt : BitVec 48
  interArrivalTime : BitVec 48
  up : Bool
  log : List DebugWrite

/-- The control's locals and the scratch record start at zero. -/
def State.start (regs : Registers) (p : Packet) : State where
  hdr := p.hdr
  std := p.std
  regs := regs
  trackMeta := TrackMeta.zero
  siz := 0
  arrivalTime := 0
  nbElem := 0
  sumSze := 0
  sumSzeDlt := 0
  sumIatDlt := 0
  interArrivalTime := 0
  up := false
  log := []

/-! ## Forwarding -/

/-- The action `ipv4_forward`. -/
def ipv4Forward (dstAddr : BitVec 48) (port : BitVec 9) (s : State) : State :=
  { s with
    std := { s.std with egressSpec := port }
    hdr := { s.hdr with
      ethernet := { s.hdr.ethernet with srcAddr := s.hdr.ethernet.dstAddr, dstAddr := dstAddr }
      ipv4 := { s.hdr.ipv4 with ttl := s.hdr.ipv4.ttl - 1 } } }

/-- The action `drop`: its only statement is commented out. -/
def drop (s : State) : State := s

/-- The action chosen by `ipv4_lpm`, an exact match on the destination. -/
def ipv4LpmLookup (t : Tables) (dst : BitVec 32) : LpmAction :=
  ((t.ipv4Lpm.find? fun e => e.1 = dst).map Prod.snd).getD t.ipv4LpmDefault

/-- `ipv4_lpm.apply()`. -/
def ipv4Lpm (t : Tables) (s : State) : State :=
  match ipv4LpmLookup t s.hdr.ipv4.dstAddr with
  | .ipv4Forward dstAddr port => ipv4Forward dstAddr port s
  | .drop => drop s
  | .noAction => s

/-- `ipv4_forwarding.apply(hdr, metadata, standard_metadata)`. -/
def ipv4Forwarding (t : Tables) (s : State) : State :=
  if s.hdr.ipv4.isValid then
    if s.std.ingressPort = cpuPort then
      { s with
        std := { s.std with
          egressSpec := s.hdr.packetOut.egressPort.setWidth 9
          mcastGrp := s.hdr.packetOut.mcastGrp }
        hdr := { s.hdr with packetOut := { s.hdr.packetOut with isValid := false } } }
    else ipv4Lpm t s
  else s

/-! ## Direction and flow hash -/

/-- The action `src_CLT`. -/
def srcCLT (s : State) : State := { s with up := true }

/-- The key of `Direc`: the upper half of the source address. -/
def srcPrefix (srcAddr : BitVec 32) : BitVec 16 := srcAddr.extractLsb' 16 16

/-- `Direc.apply()`. -/
def direc (t : Tables) (s : State) : State :=
  if t.direc.contains (srcPrefix s.hdr.ipv4.srcAddr) then srcCLT s else s

/-- The action `gen_hash`: the flow's index and keys, the collision and end-of-window tests, and
the start of the window. -/
def genHash (cfg : Config) (ipAddr1 ipAddr2 : BitVec 32) (s : State) : State :=
  let arrivalTime := s.std.ingressGlobalTimestamp
  let mIndex := cfg.hash ipAddr1 ipAddr2
  let mKeyCarried : BitVec 64 := s.hdr.ipv4.srcAddr ++ s.hdr.ipv4.dstAddr
  let mKeyInTable := s.regs.flowTracker.read mIndex
  let mFrstTimeInTable := s.regs.flowFrstTime.read mIndex
  let mSwapSpace := (mKeyInTable - mKeyCarried) * mKeyInTable
  let mEndWin : BitVec 1 :=
    if mFrstTimeInTable ≠ 0 ∧ arrivalTime - mFrstTimeInTable > winSze then 1 else 0
  { s with
    arrivalTime := arrivalTime
    trackMeta := { s.trackMeta with
      mIndex := mIndex
      mKeyCarried := mKeyCarried
      mKeyInTable := mKeyInTable
      mFrstTimeInTable := mFrstTimeInTable
      mSwapSpace := mSwapSpace
      mEndWin := mEndWin }
    regs := { s.regs with
      flowFrstTime := s.regs.flowFrstTime.write mIndex
        (if mSwapSpace = 0 ∧ mEndWin = 0 ∧ mFrstTimeInTable ≠ 0 then mFrstTimeInTable
          else arrivalTime) } }

/-! ## Inside a window -/

/-- The payload size the four accumulating actions start with: a 16-bit subtraction, widened. -/
def payloadSize (ip : Ipv4) : BitVec 32 :=
  (ip.totalLen - BitVec.ofNat 16 ipv4MinSizeInBytes - BitVec.ofNat 16 udpMinSizeInBytes).setWidth
    32

/-- The actions `updateDOWN` and `updateUP`. -/
def update (d : Direction) (s : State) : State :=
  let siz := payloadSize s.hdr.ipv4
  let arrivalTime := s.std.ingressGlobalTimestamp
  let i := s.trackMeta.mIndex
  let b := s.regs.bank d
  let m : TrackMeta := { s.trackMeta with
    mNbElemInTable := b.nbelem.read i
    mSumSzeInTable := b.sumSZE.read i
    mSumSzeDltInTable := b.dltSZE.read i
    mLastTimeInTable := b.flowTst.read i
    mSumIatDltInTable := b.dltIAT.read i
    mLstMuSze := b.lstMuSZE.read i
    mLstMuIat := b.lstMuIAT.read i }
  let nbElem := m.mNbElemInTable + 1
  let sumSze := m.mSumSzeInTable + siz
  -- An inter-arrival time needs two packets of this direction in the window.
  let interArrivalTime := if m.mLastTimeInTable ≠ 0 then arrivalTime - m.mLastTimeInTable else 0
  let sumSzeDlt :=
    if m.mLstMuSze ≠ 0 then
      m.mSumSzeDltInTable + (siz - m.mLstMuSze) * (siz - m.mLstMuSze)
    else 0
  let sumIatDlt :=
    if m.mLstMuIat ≠ 0 ∧ interArrivalTime ≠ 0 then
      m.mSumIatDltInTable
        + (interArrivalTime - m.mLstMuIat) * (interArrivalTime - m.mLstMuIat)
    else 0
  { s with
    siz := siz
    arrivalTime := arrivalTime
    trackMeta := m
    nbElem := nbElem
    sumSze := sumSze
    interArrivalTime := interArrivalTime
    sumSzeDlt := sumSzeDlt
    sumIatDlt := sumIatDlt
    regs := s.regs.setBank d { b with
      nbelem := b.nbelem.write i nbElem
      sumSZE := b.sumSZE.write i sumSze
      dltSZE := b.dltSZE.write i sumSzeDlt
      flowTst := b.flowTst.write i arrivalTime
      dltIAT := b.dltIAT.write i sumIatDlt } }

def updateDOWN : State → State := update .DW

def updateUP : State → State := update .UP

/-! ## At the start of a window -/

/-- The actions `initDOWN` and `initUP`: the packet opens a window in which its own direction has
one packet and the opposite one none. The last means of both directions stay. -/
def init (d : Direction) (s : State) : State :=
  let siz := payloadSize s.hdr.ipv4
  let i := s.trackMeta.mIndex
  let b := s.regs.bank d
  let o := s.regs.bank d.flip
  let m : TrackMeta := { s.trackMeta with mLstMuSze := b.lstMuSZE.read i }
  let sumSzeDlt := if m.mLstMuSze ≠ 0 then (siz - m.mLstMuSze) * (siz - m.mLstMuSze) else 0
  { s with
    siz := siz
    trackMeta := m
    sumSzeDlt := sumSzeDlt
    regs := (s.regs.setBank d { b with
        nbelem := b.nbelem.write i 1
        sumSZE := b.sumSZE.write i siz
        flowTst := b.flowTst.write i s.arrivalTime
        dltSZE := b.dltSZE.write i sumSzeDlt
        dltIAT := b.dltIAT.write i 0 }).setBank d.flip { o with
        nbelem := o.nbelem.write i 0
        sumSZE := o.sumSZE.write i 0
        dltSZE := o.dltSZE.write i 0
        flowTst := o.flowTst.write i 0
        dltIAT := o.dltIAT.write i 0 } }

def initDOWN : State → State := init .DW

def initUP : State → State := init .UP

/-! ## At the end of a window -/

/-- The actions `retrieveDW` and `retrieveUP`. -/
def retrieve (d : Direction) (s : State) : State :=
  let i := s.trackMeta.mIndex
  let b := s.regs.bank d
  { s with
    trackMeta := { s.trackMeta with
      mNbElemInTable := b.nbelem.read i
      mSumSzeInTable := b.sumSZE.read i
      mSumSzeDltInTable := b.dltSZE.read i
      mSumIatDltInTable := b.dltIAT.read i } }

def retrieveDW : State → State := retrieve .DW

def retrieveUP : State → State := retrieve .UP

/-- A field divided by a count: the sum of three shifts. -/
def PowParams.apply {w : ℕ} (p : PowParams) (x : BitVec w) : BitVec w :=
  (x >>> p.powera.toNat) + (x >>> p.powerb.toNat) + (x >>> p.powerc.toNat)

/-- The action `Pow`. -/
def pow (p : PowParams) (s : State) : State :=
  { s with
    trackMeta := { s.trackMeta with
      division :=
        { mMeanSZ := p.apply s.trackMeta.mSumSzeInTable
          mStdSZ := p.apply s.trackMeta.mSumSzeDltInTable
          mMeanIAT := p.apply winSze
          mStdIAT := p.apply s.trackMeta.mSumIatDltInTable } } }

/-- `Divide1.apply()` and `Divide2.apply()`: a miss leaves the scratch record as it is. -/
def divide (t : Tables) (d : Direction) (s : State) : State :=
  match rangeLookup (t.divide d) s.trackMeta.mNbElemInTable.toNat with
  | some p => pow p s
  | none => s

def divide1 (t : Tables) : State → State := divide t .DW

def divide2 (t : Tables) : State → State := divide t .UP

/-- Assign the feature fields of one direction. -/
def setFeatures (d : Direction) (ft : Features) (s : State) : State :=
  { s with
    trackMeta := { s.trackMeta with
      features := fun e => if e = d then ft else s.trackMeta.features e } }

def write12Bits (v : BitVec 12) (s : State) : State :=
  { s with
    regs := { s.regs with write12Bits := s.regs.write12Bits.write s.trackMeta.mIndex v }
    log := s.log ++ [.bits12 s.trackMeta.mIndex v] }

def write32Bits (v : BitVec 32) (s : State) : State :=
  { s with
    regs := { s.regs with write32Bits := s.regs.write32Bits.write s.trackMeta.mIndex v }
    log := s.log ++ [.bits32 s.trackMeta.mIndex v] }

def write48Bits (v : BitVec 48) (s : State) : State :=
  { s with
    regs := { s.regs with write48Bits := s.regs.write48Bits.write s.trackMeta.mIndex v }
    log := s.log ++ [.bits48 s.trackMeta.mIndex v] }

def write1Bit (v : BitVec 1) (s : State) : State :=
  { s with
    regs := { s.regs with write1Bit := s.regs.write1Bit.write s.trackMeta.mIndex v }
    log := s.log ++ [.bit1 s.trackMeta.mIndex v] }

/-- The write of the last means of one direction. -/
def writeLastMeans (d : Direction) (s : State) : State :=
  let b := s.regs.bank d
  let ft := s.trackMeta.features d
  { s with
    regs := s.regs.setBank d { b with
      lstMuSZE := b.lstMuSZE.write s.trackMeta.mIndex ft.meanSZ
      lstMuIAT := b.lstMuIAT.write s.trackMeta.mIndex ft.meanIAT } }

/-- The block "FEATURES DOWN" (`d = .DW`) or "FEATURES UP" (`d = .UP`) up to its debug writes:
retrieve the accumulators, and divide them unless the direction had no packet. -/
def computeFeatures (t : Tables) (d : Direction) (s : State) : State :=
  let s := retrieve d s
  let s := setFeatures d
    { meanSZ := 0, stdSZ := 0, meanIAT := 0, stdIAT := 0
      sum := s.trackMeta.mSumSzeInTable, nb := s.trackMeta.mNbElemInTable } s
  if s.trackMeta.mNbElemInTable > 0 then
    let s := divide t d s
    setFeatures d { s.trackMeta.features d with
      meanSZ := s.trackMeta.division.mMeanSZ
      stdSZ := s.trackMeta.division.mStdSZ
      meanIAT := s.trackMeta.division.mMeanIAT
      stdIAT := s.trackMeta.division.mStdIAT } s
  else s

/-- The six debug writes of one direction. -/
def writeFeatures (d : Direction) (s : State) : State :=
  let ft := s.trackMeta.features d
  let s := write32Bits ft.meanSZ s
  let s := write32Bits ft.stdSZ s
  let s := write48Bits ft.meanIAT s
  let s := write48Bits ft.stdIAT s
  let s := write32Bits ft.sum s
  write12Bits ft.nb s

/-- The action `setIndex<f>`. -/
def setIndex (f : Fin 12) (index : BitVec 6) (s : State) : State :=
  { s with
    trackMeta := { s.trackMeta with
      actionFt := fun g => if g = f then index else s.trackMeta.actionFt g } }

/-- `Feat<f>ruls.apply()`: a miss leaves the index as it is. -/
def featRuls (t : Tables) (f : Fin 12) (s : State) : State :=
  match rangeLookup (t.feat f) (featKey s.trackMeta.features f) with
  | some index => setIndex f index s
  | none => s

/-- The action `Set_Traffic`. -/
def setTraffic (cg : BitVec 1) (s : State) : State :=
  { s with trackMeta := { s.trackMeta with isCG := cg } }

/-- `ActRules.apply()`. -/
def actRules (t : Tables) (s : State) : State :=
  match Table.winner ActEntry.priority
      (ActEntry.hits fun f => (s.trackMeta.actionFt f).toNat) t.actRules with
  | some e => setTraffic e.cg s
  | none => s

/-- `Feat0ruls.apply(); ...; Feat11ruls.apply(); ActRules.apply();`. -/
def classify (t : Tables) (s : State) : State :=
  let s := featRuls t 0 s
  let s := featRuls t 1 s
  let s := featRuls t 2 s
  let s := featRuls t 3 s
  let s := featRuls t 4 s
  let s := featRuls t 5 s
  let s := featRuls t 6 s
  let s := featRuls t 7 s
  let s := featRuls t 8 s
  let s := featRuls t 9 s
  let s := featRuls t 10 s
  let s := featRuls t 11 s
  actRules t s

/-- The end-of-window branch. -/
def endWindow (t : Tables) (s : State) : State :=
  let s := computeFeatures t .DW s
  let s := writeFeatures .DW s
  let s := writeLastMeans .DW s
  let s := computeFeatures t .UP s
  let s := writeFeatures .UP s
  let s := writeLastMeans .UP s
  let s := write32Bits (BitVec.ofNat 32 s.trackMeta.mIndex) s
  let s := classify t s
  write1Bit s.trackMeta.isCG s

/-! ## The control -/

/-- `basic_tutorial_ingress.apply`. -/
def ingress (cfg : Config) (s : State) : State :=
  if s.hdr.ipv4.isValid ∧ s.hdr.ipv4.ttl > 0 then
    let s := ipv4Forwarding cfg.tables s
    if s.hdr.udp.isValid then
      let s := direc cfg.tables s
      let s :=
        if s.up then genHash cfg s.hdr.ipv4.srcAddr s.hdr.ipv4.dstAddr s
        else genHash cfg s.hdr.ipv4.dstAddr s.hdr.ipv4.srcAddr s
      if s.trackMeta.mEndWin = 1 ∨ s.trackMeta.mSwapSpace ≠ 0
          ∨ s.trackMeta.mFrstTimeInTable = 0 then
        let s := if s.trackMeta.mEndWin = 1 then endWindow cfg.tables s else s
        if s.up then initUP s else initDOWN s
      else if s.up then updateUP s else updateDOWN s
    else s
  else s

/-- What a window's end leaves in the packet's metadata: the register index, the twelve features,
the twelve feature indexes and the verdict. -/
@[ext] structure Report where
  index : Fin 1024
  features : Direction → Features
  actionFt : Fin 12 → BitVec 6
  isCG : BitVec 1

/-- The report of an execution that went through the end-of-window branch. -/
def State.report (s : State) : Option Report :=
  if s.trackMeta.mEndWin = 1 then
    some ⟨s.trackMeta.mIndex, s.trackMeta.features, s.trackMeta.actionFt, s.trackMeta.isCG⟩
  else none

/-- The final state of the control on one packet. -/
def process (cfg : Config) (regs : Registers) (p : Packet) : State :=
  ingress cfg (State.start regs p)

/-- The switch as a machine on packets: registers to registers, with a report or none. -/
def switchStep (cfg : Config) (regs : Registers) (p : Packet) : Registers × Option Report :=
  ((process cfg regs p).regs, (process cfg regs p).report)

end FlowClassifier
