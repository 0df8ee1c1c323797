import Mathlib.Data.Nat.Notation

/-!
# Headers and metadata

The records the pipeline reads and writes: the packet headers with their validity bits
(`includes/codex/*.p4`, `includes/headers.p4`), the part of the target's standard metadata the
program touches, and `tracking_metadata_t`, the per-packet scratch record.

The scratch record repeats six feature fields for the downlink and six for the uplink
(`mDWMeanSZ`, ..., `mUPNb`) and twelve index fields `actionFt0`, ..., `actionFt11`.  Here the
feature fields are one record per `Direction` and the index fields a function of the feature
number; `featKey` names the field each feature number stands for.
-/

namespace FlowClassifier

/-- The two directions of a conversation: towards the client and from it. -/
inductive Direction
  | DW
  | UP
  deriving DecidableEq, Repr

namespace Direction

/-- The opposite direction. -/
def flip : Direction → Direction
  | DW => UP
  | UP => DW

@[simp] theorem flip_flip (d : Direction) : d.flip.flip = d := by cases d <;> rfl

@[simp] theorem flip_ne (d : Direction) : d.flip ≠ d := by cases d <;> decide

@[simp] theorem ne_flip (d : Direction) : d ≠ d.flip := by cases d <;> decide

theorem eq_or_eq_flip (d e : Direction) : e = d ∨ e = d.flip := by
  cases d <;> cases e <;> decide

end Direction

/-! ## Packet headers -/

/-- `packet_out_header_t`. -/
structure PacketOut where
  isValid : Bool
  egressPort : BitVec 16
  mcastGrp : BitVec 16
  deriving DecidableEq

/-- `ethernet_t`. -/
structure Ethernet where
  isValid : Bool
  dstAddr : BitVec 48
  srcAddr : BitVec 48
  etherType : BitVec 16
  deriving DecidableEq

/-- `ipv4_t`. -/
structure Ipv4 where
  isValid : Bool
  version : BitVec 4
  ihl : BitVec 4
  diffserv : BitVec 8
  totalLen : BitVec 16
  identification : BitVec 16
  flags : BitVec 3
  fragOffset : BitVec 13
  ttl : BitVec 8
  protocol : BitVec 8
  hdrChecksum : BitVec 16
  srcAddr : BitVec 32
  dstAddr : BitVec 32
  deriving DecidableEq

/-- `udp_t`. -/
structure Udp where
  isValid : Bool
  srcPort : BitVec 16
  dstPort : BitVec 16
  length : BitVec 16
  checksum : BitVec 16
  deriving DecidableEq

/-- `headers_t`, without the headers the ingress control never looks at. -/
structure Headers where
  packetOut : PacketOut
  ethernet : Ethernet
  ipv4 : Ipv4
  udp : Udp
  deriving DecidableEq

/-- `hdr.ipv4.minSizeInBytes()`: the fixed part, whatever `ihl` says. -/
def ipv4MinSizeInBytes : ℕ := 20

/-- `hdr.udp.minSizeInBytes()`. -/
def udpMinSizeInBytes : ℕ := 8

/-- The fields of `standard_metadata_t` the program reads or writes. -/
structure StandardMetadata where
  ingressPort : BitVec 9
  egressSpec : BitVec 9
  mcastGrp : BitVec 16
  ingressGlobalTimestamp : BitVec 48
  deriving DecidableEq

/-- What the ingress control is applied to: the parsed headers and the standard metadata. -/
structure Packet where
  hdr : Headers
  std : StandardMetadata
  deriving DecidableEq

/-! ## Tracking metadata -/

/-- The "temporal division" fields: the result of the last division. -/
structure Division where
  mMeanSZ : BitVec 32
  mStdSZ : BitVec 32
  mMeanIAT : BitVec 48
  mStdIAT : BitVec 48
  deriving DecidableEq

/-- The six features of one direction. -/
structure Features where
  meanSZ : BitVec 32
  stdSZ : BitVec 32
  meanIAT : BitVec 48
  stdIAT : BitVec 48
  sum : BitVec 32
  nb : BitVec 12
  deriving DecidableEq

/-- `tracking_metadata_t`. -/
structure TrackMeta where
  mIndex : Fin 1024
  mKeyCarried : BitVec 64
  mKeyInTable : BitVec 64
  mFrstTimeInTable : BitVec 48
  mSwapSpace : BitVec 64
  mEndWin : BitVec 1
  mNbElemInTable : BitVec 12
  mSumSzeInTable : BitVec 32
  mSumSzeDltInTable : BitVec 32
  mLstMuSze : BitVec 32
  mLastTimeInTable : BitVec 48
  mSumIatDltInTable : BitVec 48
  mLstMuIat : BitVec 48
  division : Division
  features : Direction → Features
  actionFt : Fin 12 → BitVec 6
  isCG : BitVec 1

/-- The value a per-packet record starts from. -/
def Division.zero : Division := ⟨0, 0, 0, 0⟩

/-- The value a per-packet record starts from. -/
def Features.zero : Features := ⟨0, 0, 0, 0, 0, 0⟩

/-- The target zeroes the scratch record before every packet. -/
def TrackMeta.zero : TrackMeta where
  mIndex := 0
  mKeyCarried := 0
  mKeyInTable := 0
  mFrstTimeInTable := 0
  mSwapSpace := 0
  mEndWin := 0
  mNbElemInTable := 0
  mSumSzeInTable := 0
  mSumSzeDltInTable := 0
  mLstMuSze := 0
  mLastTimeInTable := 0
  mSumIatDltInTable := 0
  mLstMuIat := 0
  division := Division.zero
  features := fun _ => Features.zero
  actionFt := fun _ => 0
  isCG := 0

/-- The field that feature number `f` is the name of, the same in the feature tables' keys and in
the controller's dictionary `FTS`: six downlink features, then the six uplink ones. -/
def featKey (ft : Direction → Features) (f : Fin 12) : ℕ :=
  match f with
  | 0 => (ft .DW).meanSZ.toNat
  | 1 => (ft .DW).stdSZ.toNat
  | 2 => (ft .DW).meanIAT.toNat
  | 3 => (ft .DW).stdIAT.toNat
  | 4 => (ft .DW).sum.toNat
  | 5 => (ft .DW).nb.toNat
  | 6 => (ft .UP).meanSZ.toNat
  | 7 => (ft .UP).stdSZ.toNat
  | 8 => (ft .UP).meanIAT.toNat
  | 9 => (ft .UP).stdIAT.toNat
  | 10 => (ft .UP).sum.toNat
  | 11 => (ft .UP).nb.toNat

end FlowClassifier
